/-
Module: CilkL.Proofs.StrandPedigree
Layer: Proofs
Purpose: What is kept of the pedigree of a function agrees with the serial execution, wherever the function
  is: the worker's pedigree, `parent_pedigree` and `saved_ped` hold the rank of its strand and the address
  of the innermost helper, and the helpers that are still there hold the ranks of the chain, one under the
  other.
Imports: CilkL.Runtime.StrandPedigree
Trusted boundary: none
Main exports: StrandPosition, mem_serialStrands, StrandInv, strandInv_of_reachable, StrandInv.sees,
  running_of_started
Open obligations: none
-/
import CilkL.Runtime.StrandPedigree

namespace CilkL

section Serial

/-- A strand of the serial execution: what its function goes on with, and its pedigree. -/
structure StrandPosition where
  code : StrandCode
  rank : UInt64
  chain : List UInt64
  deriving DecidableEq, Repr

/-- The strand that a turn leads to. -/
@[grind]
def StrandPosition.turn : StrandPosition → StrandTurn → Option StrandPosition
  | ⟨.ret, _, _⟩, _ => none
  | ⟨.spawn child _, rank, chain⟩, .into => some ⟨child, 1, rank :: chain⟩
  | ⟨.spawn _ rest, rank, chain⟩, .next => some ⟨rest, rank + 1, chain⟩
  | ⟨.future child _, rank, chain⟩, .into => some ⟨child, 1, rank :: chain⟩
  | ⟨.future _ rest, rank, chain⟩, .next => some ⟨rest, rank + 1, chain⟩
  | ⟨.call callee _, rank, chain⟩, .into => some ⟨callee, rank, chain⟩
  | ⟨.call callee rest, rank, chain⟩, .next => some ⟨rest, endRank callee rank, chain⟩
  | ⟨.sync _, _, _⟩, .into => none
  | ⟨.sync rest, rank, chain⟩, .next => some ⟨rest, rank + 1, chain⟩
  | ⟨.get _, _, _⟩, .into => none
  | ⟨.get rest, rank, chain⟩, .next => some ⟨rest, rank, chain⟩

/-- The strand at the end of a path. -/
def StrandPosition.follow (start : StrandPosition) (path : List StrandTurn) : Option StrandPosition :=
  path.foldlM StrandPosition.turn start

namespace StrandPosition

variable (start position : StrandPosition) (turn : StrandTurn) (path : List StrandTurn)

@[simp] theorem follow_nil : start.follow [] = some start := rfl

theorem follow_cons : start.follow (turn :: path) = (start.turn turn).bind fun p => p.follow path := rfl

theorem follow_append :
    start.follow (path ++ [turn]) = (start.follow path).bind fun p => p.turn turn := by
  simp [follow, List.foldlM_append]

variable {start position turn path}

/-- The serial execution of the function goes on to the same rank at its return. -/
theorem endRank_of_next {next : StrandPosition} (on : position.turn .next = some next) :
    endRank next.code next.rank = endRank position.code position.rank := by
  obtain ⟨code, rank, chain⟩ := position
  cases code <;> grind -linarith [endRank]

end StrandPosition

/-- A strand of the list is the one it starts from, or lies behind one of the two turns. -/
theorem exists_way {there path : List StrandTurn} {pedigree : List UInt64} {start : StrandPosition} :
    (∃ way p, there = path ++ way ∧ start.follow way = some p ∧ pedigree = p.rank :: p.chain) ↔
      (there = path ∧ pedigree = start.rank :: start.chain) ∨
        (∃ first, start.turn .into = some first ∧ ∃ way p, there = (path ++ [.into]) ++ way ∧
          first.follow way = some p ∧ pedigree = p.rank :: p.chain) ∨
        (∃ first, start.turn .next = some first ∧ ∃ way p, there = (path ++ [.next]) ++ way ∧
          first.follow way = some p ∧ pedigree = p.rank :: p.chain) := by
  constructor
  · rintro ⟨way, p, rfl, follow, rfl⟩
    cases way with
    | nil =>
        obtain rfl := Option.some.inj follow
        exact .inl ⟨by simp, rfl⟩
    | cons turn way =>
        rw [StrandPosition.follow_cons] at follow
        obtain ⟨first, turned, rest⟩ := Option.bind_eq_some_iff.mp follow
        cases turn with
        | into => exact .inr (.inl ⟨first, turned, way, p, by simp, rest, rfl⟩)
        | next => exact .inr (.inr ⟨first, turned, way, p, by simp, rest, rfl⟩)
  · rintro (⟨rfl, rfl⟩ | ⟨first, turned, way, p, rfl, follow, rfl⟩ | ⟨first, turned, way, p, rfl, follow, rfl⟩)
    · exact ⟨[], start, by simp, rfl, rfl⟩
    · exact ⟨.into :: way, p, by simp, by simp [StrandPosition.follow_cons, turned, follow], rfl⟩
    · exact ⟨.next :: way, p, by simp, by simp [StrandPosition.follow_cons, turned, follow], rfl⟩

/-- The strands that the serial execution goes through are those at the ends of the paths. -/
theorem mem_serialFrom (code : StrandCode) (path : List StrandTurn) (rank : UInt64) (chain : List UInt64)
    (there : List StrandTurn) (pedigree : List UInt64) :
    (there, pedigree) ∈ (path, rank :: chain) :: serialFrom code path rank chain ↔
      ∃ way p, there = path ++ way ∧ (StrandPosition.mk code rank chain).follow way = some p ∧
        pedigree = p.rank :: p.chain := by
  induction code generalizing path rank chain with
  | ret =>
      rw [exists_way, serialFrom]
      simp [StrandPosition.turn]
  | spawn child rest childIh restIh =>
      rw [exists_way, List.mem_cons, serialFrom, List.mem_append, childIh, restIh]
      simp [StrandPosition.turn]
  | future child rest childIh restIh =>
      rw [exists_way, List.mem_cons, serialFrom, List.mem_append, childIh, restIh]
      simp [StrandPosition.turn]
  | call callee rest calleeIh restIh =>
      rw [exists_way, List.mem_cons, serialFrom, List.mem_append, calleeIh, restIh]
      simp [StrandPosition.turn]
  | sync rest restIh =>
      rw [exists_way, List.mem_cons, serialFrom, restIh]
      simp [StrandPosition.turn]
  | get rest restIh =>
      rw [exists_way, List.mem_cons, serialFrom, restIh]
      simp [StrandPosition.turn]

/-- Each path of the serial execution has one pedigree, the one at its end. -/
theorem mem_serialStrands {program : StrandCode} {rank : UInt64} {chain : List UInt64}
    {path : List StrandTurn} {p : StrandPosition}
    (follow : (StrandPosition.mk program rank chain).follow path = some p) (pedigree : List UInt64) :
    (path, pedigree) ∈ serialStrands program rank chain ↔ pedigree = p.rank :: p.chain := by
  rw [serialStrands, mem_serialFrom]
  simp [follow]

end Serial

variable {W : Type}

namespace StrandState

section Updates

variable (s : StrandState W) (x y : Nat) (w w' : W) (value : PedigreeNode) (frame : StrandFrame W)
  (place : StrandPlace W) (address address' : PedigreeAddr) (stolen : Bool) (current : Option Nat)

@[simp, grind =] theorem ped_setNode : (s.setNode address value).ped w = s.ped w := rfl

@[simp, grind =] theorem work_stolen_setNode :
    (s.setNode address value).work_stolen w = s.work_stolen w := rfl

@[simp, grind =] theorem node_setNode :
    (s.setNode address value).node address' = if address' = address then value else s.node address' := by
  simp [setNode, Function.update_apply]

@[simp, grind =] theorem frame_setNode : (s.setNode address value).frame x = s.frame x := rfl

@[simp, grind =] theorem count_setNode : (s.setNode address value).count = s.count := rfl

@[simp, grind =] theorem current_setNode : (s.setNode address value).current w = s.current w := rfl

@[simp, grind =] theorem ped_setFrame : (s.setFrame x frame).ped w = s.ped w := rfl

@[simp, grind =] theorem work_stolen_setFrame :
    (s.setFrame x frame).work_stolen w = s.work_stolen w := rfl

@[simp, grind =] theorem node_setFrame : (s.setFrame x frame).node address = s.node address := rfl

@[simp, grind =] theorem frame_setFrame :
    (s.setFrame x frame).frame y = if y = x then frame else s.frame y := by
  simp [setFrame, Function.update_apply]

@[simp, grind =] theorem count_setFrame : (s.setFrame x frame).count = s.count := rfl

@[simp, grind =] theorem current_setFrame : (s.setFrame x frame).current w = s.current w := rfl

@[simp, grind =] theorem ped_starting : (s.starting current).ped w = s.ped w := rfl

@[simp, grind =] theorem work_stolen_starting : (s.starting current).work_stolen w = s.work_stolen w := rfl

@[simp, grind =] theorem node_starting : (s.starting current).node address = s.node address := rfl

@[simp, grind =] theorem frame_starting : (s.starting current).frame x = s.frame x := rfl

@[simp, grind =] theorem count_starting : (s.starting current).count = s.count := rfl

@[simp, grind =] theorem current_starting : (s.starting current).current w = s.current w := rfl

variable [DecidableEq W]

@[simp, grind =] theorem ped_setPed : (s.setPed w value).ped w' = if w' = w then value else s.ped w' := by
  simp [setPed, Function.update_apply]

@[simp, grind =] theorem work_stolen_setPed : (s.setPed w value).work_stolen w' = s.work_stolen w' := rfl

@[simp, grind =] theorem node_setPed : (s.setPed w value).node address = s.node address := rfl

@[simp, grind =] theorem frame_setPed : (s.setPed w value).frame x = s.frame x := rfl

@[simp, grind =] theorem count_setPed : (s.setPed w value).count = s.count := rfl

@[simp, grind =] theorem current_setPed : (s.setPed w value).current w' = s.current w' := rfl

@[simp, grind =] theorem ped_setCurrent : (s.setCurrent w current).ped w' = s.ped w' := rfl

@[simp, grind =] theorem work_stolen_setCurrent :
    (s.setCurrent w current).work_stolen w' = s.work_stolen w' := rfl

@[simp, grind =] theorem node_setCurrent : (s.setCurrent w current).node address = s.node address := rfl

@[simp, grind =] theorem frame_setCurrent : (s.setCurrent w current).frame x = s.frame x := rfl

@[simp, grind =] theorem count_setCurrent : (s.setCurrent w current).count = s.count := rfl

@[simp, grind =] theorem current_setCurrent :
    (s.setCurrent w current).current w' = if w' = w then current else s.current w' := by
  simp [setCurrent, Function.update_apply]

@[simp, grind =] theorem ped_setStolen : (s.setStolen w stolen).ped w' = s.ped w' := rfl

@[simp, grind =] theorem work_stolen_setStolen :
    (s.setStolen w stolen).work_stolen w' = if w' = w then stolen else s.work_stolen w' := by
  simp [setStolen, Function.update_apply]

@[simp, grind =] theorem node_setStolen : (s.setStolen w stolen).node address = s.node address := rfl

@[simp, grind =] theorem frame_setStolen : (s.setStolen w stolen).frame x = s.frame x := rfl

@[simp, grind =] theorem count_setStolen : (s.setStolen w stolen).count = s.count := rfl

@[simp, grind =] theorem current_setStolen : (s.setStolen w stolen).current w' = s.current w' := rfl

@[simp, grind =] theorem ped_enter : (s.enter w frame).ped w' = s.ped w' := rfl

@[simp, grind =] theorem work_stolen_enter : (s.enter w frame).work_stolen w' = s.work_stolen w' := rfl

@[simp, grind =] theorem node_enter : (s.enter w frame).node address = s.node address := rfl

@[simp, grind =] theorem frame_enter :
    (s.enter w frame).frame x = if x = s.count then frame else s.frame x := by
  simp [enter, setCurrent, setFrame, Function.update_apply]

@[simp, grind =] theorem count_enter : (s.enter w frame).count = s.count + 1 := rfl

@[simp, grind =] theorem current_enter :
    (s.enter w frame).current w' = if w' = w then some s.count else s.current w' := by
  simp [enter, setCurrent, setFrame, Function.update_apply]

end Updates

/-- The function is in the strand at the end of its path. -/
def At (s : StrandState W) (start : StrandPosition) (x : Nat) (p : StrandPosition) : Prop :=
  start.follow (s.frame x).path = some p ∧ p.code = (s.frame x).code

/-- Where the innermost node is, under the given helpers. -/
def under (s : StrandState W) : List Nat → PedigreeAddr
  | [] => tlsRoot
  | h :: _ => (s.frame h).helper

/-- What `w->pedigree` is in a strand of a function. -/
def link (s : StrandState W) (x : Nat) (rank : UInt64) : PedigreeNode where
  rank := rank
  parent := some (s.under (s.frame x).helpers)

/-- The helpers that are still there have the ranks of the chain, one under the other. -/
def Hangs (s : StrandState W) (root : UInt64) : List Nat → List UInt64 → Prop
  | [], chain => chain = [root]
  | h :: helpers, chain =>
    ∃ rank rest, chain = rank :: rest ∧ h < s.count ∧
      (s.Live h → s.node (s.frame h).helper = { rank := rank, parent := some (s.under helpers) }) ∧
        s.Hangs root helpers rest

/-- What is kept of the pedigree of a function in the strand `p`, by where the function is. -/
def PlaceHolds (s : StrandState W) (start : StrandPosition) (x : Nat) (p : StrandPosition) :
    StrandPlace W → Prop
  | .running w => s.current w = some x ∧ s.work_stolen w = false ∧ s.ped w = s.link x p.rank
  | .next w => s.current w = some x ∧ ∀ pedigree,
      setup_for_execution_pedigree (s.work_stolen w) (s.frame x).pedigree_unsynched
        (s.frame x).parent_pedigree pedigree = s.link x p.rank
  | .detached child => child < s.count ∧ ∃ rank, p.rank = rank + 1 ∧
      (s.frame x).parent_pedigree = s.link x rank ∧
        (s.Live child → s.node (s.frame child).helper = s.link x rank)
  | .calling callee => callee < s.count ∧ (s.frame callee).helpers = (s.frame x).helpers ∧
      ∀ q, s.At start callee q → endRank q.code q.rank = p.rank
  | .stalled => (s.frame x).pedigree_unsynched = true ∧ (s.frame x).parent_pedigree = s.link x p.rank
  | .suspended saved_ped => saved_ped = s.link x p.rank
  | .exiting rank => rank = p.rank ∧ p.code = .ret
  | .returned => True

/-- The pedigree of a function is that of its strand in the serial execution. -/
def FrameHolds (s : StrandState W) (start : StrandPosition) (root : UInt64) (x : Nat) : Prop :=
  ∃ p, s.At start x p ∧ s.Hangs root (s.frame x).helpers p.chain ∧
    s.PlaceHolds start x p (s.frame x).place

end StrandState

open StrandState

/-- The invariant of a program that starts with the strand `start`, under a root of the given rank. -/
structure StrandInv (start : StrandPosition) (root : UInt64) (s : StrandState W) : Prop where
  nonempty : 0 < s.count
  fresh : ∀ x, s.count ≤ x → (s.frame x).place = .returned
  idle : ∀ w, s.current w = none → s.work_stolen w = false
  rootNode : s.node tlsRoot = { rank := root, parent := none }
  frames : ∀ x < s.count, s.FrameHolds start root x
  outermost : ∀ p, s.At start 0 p → endRank p.code p.rank = endRank start.code start.rank

/-- What stays of each function and its helper, whatever else happens. -/
structure Ages (start : StrandPosition) (s s' : StrandState W) : Prop where
  count : s.count ≤ s'.count
  helper : ∀ x < s.count, (s'.frame x).helper = (s.frame x).helper
  helpers : ∀ x < s.count, (s'.frame x).helpers = (s.frame x).helpers
  live : ∀ x < s.count, s'.Live x →
    s.Live x ∧ s'.node (s.frame x).helper = s.node (s.frame x).helper
  ends : ∀ x < s.count, ∀ p', s'.At start x p' →
    ∃ p, s.At start x p ∧ endRank p'.code p'.rank = endRank p.code p.rank
  rootNode : s'.node tlsRoot = s.node tlsRoot

section Frames

variable {start : StrandPosition} {root : UInt64} {s s' s'' : StrandState W} {x : Nat}

theorem Ages.trans (first : Ages start s s') (second : Ages start s' s'') : Ages start s s'' where
  count := Nat.le_trans first.count second.count
  helper x known := (second.helper x (by have := first.count; omega)).trans (first.helper x known)
  helpers x known := (second.helpers x (by have := first.count; omega)).trans (first.helpers x known)
  live x known live := by
    have later := second.live x (by have := first.count; omega) live
    have earlier := first.live x known later.1
    refine ⟨earlier.1, ?_⟩
    rw [← earlier.2, ← first.helper x known]
    exact later.2
  ends x known p' at_ := by
    obtain ⟨q, atQ, same⟩ := second.ends x (by have := first.count; omega) p' at_
    obtain ⟨p, atP, sameP⟩ := first.ends x known q atQ
    exact ⟨p, atP, same.trans sameP⟩
  rootNode := second.rootNode.trans first.rootNode

/-- Where nothing but workers changes, the functions and their helpers stay. -/
theorem Ages.of_eq (frame : ∀ x, s'.frame x = s.frame x) (node : ∀ a, s'.node a = s.node a)
    (count : s'.count = s.count) : Ages start s s' := by
  refine ⟨Nat.le_of_eq count.symm, ?_, ?_, ?_, ?_, node _⟩
  · intro x _
    rw [frame]
  · intro x _
    rw [frame]
  · intro x _ live
    exact ⟨by simpa [Live, frame] using live, node _⟩
  · intro x _ p' at_
    exact ⟨p', by simpa [At, frame] using at_, rfl⟩

theorem Ages.starting (current : Option Nat) : Ages start s (s.starting current) :=
  .of_eq (fun _ => rfl) (fun _ => rfl) rfl

theorem Ages.setPed [DecidableEq W] (w : W) (ped : PedigreeNode) : Ages start s (s.setPed w ped) :=
  .of_eq (fun _ => rfl) (fun _ => rfl) rfl

theorem Ages.setCurrent [DecidableEq W] (w : W) (current : Option Nat) :
    Ages start s (s.setCurrent w current) :=
  .of_eq (fun _ => rfl) (fun _ => rfl) rfl

theorem Ages.setStolen [DecidableEq W] (w : W) (stolen : Bool) : Ages start s (s.setStolen w stolen) :=
  .of_eq (fun _ => rfl) (fun _ => rfl) rfl

/-- No helper is where something is written. -/
theorem Ages.setNode {address : PedigreeAddr} (vacant : s.Vacant address) (value : PedigreeNode) :
    Ages start s (s.setNode address value) := by
  refine ⟨Nat.le_refl _, fun _ _ => rfl, fun _ _ => rfl, ?_, fun x _ p' at_ => ⟨p', at_, rfl⟩, ?_⟩
  · intro y known live
    have elsewhere : (s.frame y).helper ≠ address := vacant.2 y known live
    exact ⟨live, by simp [elsewhere]⟩
  · have elsewhere := vacant.1
    simp [elsewhere.symm]

/-- A function goes on, in its strand or with the next one. -/
theorem Ages.setFrame (start : StrandPosition) (frame : StrandFrame W) (helper : frame.helper = (s.frame x).helper)
    (helpers : frame.helpers = (s.frame x).helpers) (live : frame.place ≠ .returned → s.Live x)
    (path : frame.path = (s.frame x).path ∧ frame.code = (s.frame x).code ∨
      frame.path = (s.frame x).path ++ [.next] ∧ ∃ p, s.At start x p) :
    Ages start s (s.setFrame x frame) := by
  refine ⟨Nat.le_refl _, ?_, ?_, ?_, ?_, rfl⟩
  · intro y _
    grind -linarith
  · intro y _
    grind -linarith
  · intro y _ liveY
    refine ⟨?_, rfl⟩
    by_cases same : y = x
    · subst same
      exact live (by simpa [Live] using liveY)
    · simpa [Live, same] using liveY
  · intro y _ p' at_
    by_cases same : y = x
    · subst same
      obtain ⟨follow, code⟩ : start.follow frame.path = some p' ∧ p'.code = frame.code := by
        simpa [At] using at_
      rcases path with ⟨samePath, sameCode⟩ | ⟨next, p, atP⟩
      · exact ⟨p', ⟨samePath ▸ follow, code.trans sameCode⟩, rfl⟩
      · rw [next, StrandPosition.follow_append, atP.1] at follow
        exact ⟨p, atP, StrandPosition.endRank_of_next follow⟩
    · exact ⟨p', by simpa [At, same] using at_, rfl⟩

/-- The helpers of a chain are under the same addresses as before. -/
theorem Ages.under (ages : Ages start s s') {helpers : List Nat} {chain : List UInt64}
    (hangs : s.Hangs root helpers chain) : s'.under helpers = s.under helpers := by
  cases helpers with
  | nil => rfl
  | cons h helpers =>
      obtain ⟨_, _, _, known, _, _⟩ := hangs
      exact ages.helper h known

/-- The chain hangs as before. -/
theorem Ages.hangs (ages : Ages start s s') {helpers : List Nat} {chain : List UInt64}
    (hangs : s.Hangs root helpers chain) : s'.Hangs root helpers chain := by
  induction helpers generalizing chain with
  | nil => exact hangs
  | cons h helpers ih =>
      obtain ⟨rank, rest, rfl, known, node, below⟩ := hangs
      refine ⟨rank, rest, rfl, Nat.lt_of_lt_of_le known ages.count, ?_, ih below⟩
      intro live
      obtain ⟨liveBefore, kept⟩ := ages.live h known live
      rw [ages.helper h known, kept, node liveBefore, ages.under below]

/-- A function that the step does not touch, on a worker that it does not touch. -/
theorem Ages.frameHolds (ages : Ages start s s')
    (holds : s.FrameHolds start root x) (same : s'.frame x = s.frame x)
    (worker : ∀ w, s.current w = some x →
      s'.current w = s.current w ∧ s'.work_stolen w = s.work_stolen w ∧ s'.ped w = s.ped w) :
    s'.FrameHolds start root x := by
  obtain ⟨p, at_, hangs, holds⟩ := holds
  have under : s'.under (s.frame x).helpers = s.under (s.frame x).helpers := ages.under hangs
  have link : ∀ rank, s'.link x rank = s.link x rank := by
    intro rank
    simp only [StrandState.link, same, under]
  refine ⟨p, ⟨same ▸ at_.1, same ▸ at_.2⟩, same ▸ ages.hangs hangs, ?_⟩
  rw [same]
  cases place : (s.frame x).place with
  | running w =>
      rw [place] at holds
      obtain ⟨current, stolen, ped⟩ := holds
      obtain ⟨current', stolen', ped'⟩ := worker w current
      exact ⟨current'.trans current, stolen'.trans stolen, ped'.trans (ped.trans (link _).symm)⟩
  | next w =>
      rw [place] at holds
      obtain ⟨current, setup⟩ := holds
      obtain ⟨current', stolen', -⟩ := worker w current
      refine ⟨current'.trans current, ?_⟩
      intro pedigree
      rw [stolen', same, setup, link]
  | detached child =>
      rw [place] at holds
      obtain ⟨known', rank, next, saved, node⟩ := holds
      refine ⟨Nat.lt_of_lt_of_le known' ages.count, rank, next, by rw [same, saved, link], ?_⟩
      intro live
      obtain ⟨liveBefore, kept⟩ := ages.live child known' live
      rw [ages.helper child known', kept, node liveBefore, link]
  | calling callee =>
      rw [place] at holds
      obtain ⟨known', helpers, ends⟩ := holds
      refine ⟨Nat.lt_of_lt_of_le known' ages.count, by rw [same, ages.helpers callee known', helpers], ?_⟩
      intro q' atQ'
      obtain ⟨q, atQ, sameEnd⟩ := ages.ends callee known' q' atQ'
      exact sameEnd.trans (ends q atQ)
  | stalled =>
      rw [place] at holds
      exact ⟨same ▸ holds.1, by rw [same, link]; exact holds.2⟩
  | suspended saved_ped =>
      rw [place] at holds
      exact holds.trans (link _).symm
  | exiting rank =>
      rw [place] at holds
      exact holds
  | returned => trivial

/-- The same when the step is on one worker, which does not have the function. -/
theorem Ages.elsewhere (ages : Ages start s s') (holds : s.FrameHolds start root x)
    (same : s'.frame x = s.frame x) {w : W} (off : s.current w ≠ some x)
    (workers : ∀ w', w' ≠ w →
      s'.current w' = s.current w' ∧ s'.work_stolen w' = s.work_stolen w' ∧ s'.ped w' = s.ped w') :
    s'.FrameHolds start root x := by
  refine ages.frameHolds holds same ?_
  intro w' on
  refine workers w' ?_
  rintro rfl
  exact off on

/-- The pedigree of a strand is the same node as before. -/
theorem Ages.link (ages : Ages start s s') {chain : List UInt64}
    (hangs : s.Hangs root (s.frame x).helpers chain)
    (helpers : (s'.frame x).helpers = (s.frame x).helpers) (rank : UInt64) :
    s'.link x rank = s.link x rank := by
  simp only [StrandState.link, helpers, ages.under hangs]

/-- A function runs in a strand that hangs where it hung. -/
theorem Ages.runs (ages : Ages start s s') {p : StrandPosition} {w : W}
    (hangs : s.Hangs root (s.frame x).helpers p.chain)
    (helpers : (s'.frame x).helpers = (s.frame x).helpers) (at_ : s'.At start x p)
    (place : (s'.frame x).place = .running w) (current : s'.current w = some x)
    (stolen : s'.work_stolen w = false) (ped : s'.ped w = s.link x p.rank) :
    s'.FrameHolds start root x := by
  refine ⟨p, at_, helpers ▸ ages.hangs hangs, ?_⟩
  rw [place]
  exact ⟨current, stolen, ped.trans (ages.link hangs helpers p.rank).symm⟩

/-- A function is entered. -/
theorem Ages.enter [DecidableEq W] (w : W) (frame : StrandFrame W) : Ages start s (s.enter w frame) := by
  have same : ∀ x < s.count, (s.enter w frame).frame x = s.frame x := by
    intro x known
    have other : x ≠ s.count := by omega
    simp [other]
  refine ⟨Nat.le_succ _, ?_, ?_, ?_, ?_, rfl⟩
  · intro x known
    rw [same x known]
  · intro x known
    rw [same x known]
  · intro x known live
    rw [Live, same x known] at live
    exact ⟨live, rfl⟩
  · intro x known p' at_
    rw [At, same x known] at at_
    exact ⟨p', at_, rfl⟩

end Frames

section Steps

variable {start : StrandPosition} {root : UInt64} {s s' : StrandState W} {x : Nat}

/-- The invariant after a step, from what stays and from each function. -/
theorem StrandInv.of_ages (inv : StrandInv start root s) (ages : Ages start s s')
    (fresh : ∀ x, s'.count ≤ x → (s'.frame x).place = .returned)
    (idle : ∀ w, s'.current w = none → s'.work_stolen w = false)
    (frames : ∀ x < s'.count, s'.FrameHolds start root x) : StrandInv start root s' where
  nonempty := Nat.lt_of_lt_of_le inv.nonempty ages.count
  fresh := fresh
  idle := idle
  rootNode := ages.rootNode.trans inv.rootNode
  frames := frames
  outermost p' at_ := by
    obtain ⟨p, atP, same⟩ := ages.ends 0 inv.nonempty p' at_
    exact same.trans (inv.outermost p atP)

/-- The invariant after a step of one worker that enters no function, from the functions it touches. -/
theorem StrandInv.of_touched (inv : StrandInv start root s) (ages : Ages start s s') (w : W)
    (touched : List Nat) (count : s'.count = s.count)
    (known : ∀ y ∈ touched, y < s.count) (same : ∀ y, y ∉ touched → s'.frame y = s.frame y)
    (off : ∀ y, y ∉ touched → s.current w ≠ some y)
    (workers : ∀ w', w' ≠ w →
      s'.current w' = s.current w' ∧ s'.work_stolen w' = s.work_stolen w' ∧ s'.ped w' = s.ped w')
    (idle : s'.current w = none → s'.work_stolen w = false)
    (frames : ∀ y ∈ touched, s'.FrameHolds start root y) : StrandInv start root s' := by
  refine inv.of_ages ages ?_ ?_ ?_
  · intro y unknown
    have other : y ∉ touched := by
      intro there
      have := known y there
      omega
    rw [same y other]
    exact inv.fresh y (by omega)
  · intro w' none_
    by_cases here : w' = w
    · subst here
      exact idle none_
    · obtain ⟨current, stolen, -⟩ := workers w' here
      rw [stolen]
      exact inv.idle w' (current ▸ none_)
  · intro y knownY
    by_cases there : y ∈ touched
    · exact frames y there
    · exact ages.elsewhere (inv.frames y (by omega)) (same y there) (off y there) workers

/-- A function that has not returned has been entered. -/
theorem StrandInv.known (inv : StrandInv start root s) {place : StrandPlace W}
    (at_ : (s.frame x).place = place) (active : place ≠ .returned) : x < s.count := by
  by_contra unknown
  exact active (at_ ▸ inv.fresh x (by omega))

/-- The strand of a function that has not returned. -/
theorem StrandInv.frameAt (inv : StrandInv start root s) {place : StrandPlace W}
    (at_ : (s.frame x).place = place) (active : place ≠ .returned) :
    ∃ p, s.At start x p ∧ s.Hangs root (s.frame x).helpers p.chain ∧ s.PlaceHolds start x p place := by
  have frame := inv.frames x (inv.known at_ active)
  rwa [FrameHolds, at_] at frame

/-- The strand behind a turn. -/
theorem StrandState.At.turn {p q : StrandPosition} (at_ : s.At start x p) {code : StrandCode}
    (doing : (s.frame x).code = code) {turn : StrandTurn}
    (turned : (StrandPosition.mk code p.rank p.chain).turn turn = some q) :
    start.follow ((s.frame x).path ++ [turn]) = some q := by
  obtain ⟨follow, same⟩ := at_
  rw [← doing, ← same] at turned
  rw [StrandPosition.follow_append, follow]
  exact turned

variable [DecidableEq W]

/-- `__cilkrts_detach`. -/
theorem StrandInv.detach (inv : StrandInv start root s) {w : W} {address : PedigreeAddr}
    {kind : StrandKind} {child rest : StrandCode} (at_ : (s.frame x).place = .running w)
    (vacant : s.Vacant address)
    (code : (s.frame x).code = .spawn child rest ∨ (s.frame x).code = .future child rest) :
    StrandInv start root (s.detach w x address kind child rest) := by
  have known : x < s.count := inv.known at_ (by simp)
  have other : x ≠ s.count := by omega
  obtain ⟨p, atP, hangs, current, stolen, ped⟩ := inv.frameAt at_ (by simp)
  have into : start.follow ((s.frame x).path ++ [.into]) = some ⟨child, 1, p.rank :: p.chain⟩ := by
    rcases code with code | code <;> exact atP.turn code rfl
  have next : start.follow ((s.frame x).path ++ [.next]) = some ⟨rest, p.rank + 1, p.chain⟩ := by
    rcases code with code | code <;> exact atP.turn code rfl
  have written : Ages start s (s.setNode address (s.ped w)) := .setNode vacant _
  have waits := Ages.setFrame (s := s.setNode address (s.ped w)) (x := x) start
    { s.frame x with
      code := rest, path := (s.frame x).path ++ [.next], place := .detached s.count
      parent_pedigree := s.ped w } rfl rfl (by simp [Live, at_]) (.inr ⟨rfl, p, atP⟩)
  have ages : Ages start s (s.detach w x address kind child rest) :=
    written.trans (waits.trans ((Ages.setPed w { rank := 1, parent := some address }).trans (.enter w _)))
  refine inv.of_ages ages ?_ ?_ ?_
  · intro y unknown
    have before := inv.fresh y
    simp only [StrandState.detach] at unknown ⊢
    grind -linarith
  · intro w' none_
    have before := inv.idle w'
    simp only [StrandState.detach] at none_ ⊢
    grind -linarith
  · intro y knownY
    have under := ages.under hangs
    have frameX : ((s.detach w x address kind child rest).frame x) = { s.frame x with
        code := rest, path := (s.frame x).path ++ [.next], place := .detached s.count
        parent_pedigree := s.ped w } := by
      simp [StrandState.detach, other]
    by_cases new : y = s.count
    · subst new
      refine ⟨⟨child, 1, p.rank :: p.chain⟩, ?_, ?_, ?_⟩
      · simpa [At, StrandState.detach] using into
      · have node : (s.detach w x address kind child rest).Live s.count →
            (s.detach w x address kind child rest).node
              ((s.detach w x address kind child rest).frame s.count).helper =
                { rank := p.rank, parent := some (s.under (s.frame x).helpers) } := by
          intro _
          simpa [StrandState.detach, StrandState.link] using ped
        have frameHelpers : ((s.detach w x address kind child rest).frame s.count).helpers =
            s.count :: (s.frame x).helpers := by simp [StrandState.detach]
        rw [frameHelpers]
        exact ⟨p.rank, p.chain, rfl, knownY, under ▸ node, ages.hangs hangs⟩
      · simp [PlaceHolds, StrandState.detach, StrandState.link, StrandState.under, stolen]
    by_cases same : y = x
    · subst same
      refine ⟨⟨rest, p.rank + 1, p.chain⟩, ?_, ?_, ?_⟩
      · simpa [At, frameX] using next
      · rw [frameX]
        exact ages.hangs hangs
      · have link : (s.detach w y address kind child rest).link y p.rank = s.link y p.rank := by
          simp only [StrandState.link, frameX, under]
        rw [frameX]
        refine ⟨by simp [StrandState.detach], p.rank, rfl, ?_, ?_⟩
        · rw [frameX, link]
          exact ped
        · intro _
          rw [link, ← ped]
          simp [StrandState.detach]
    refine ages.elsewhere (w := w) (inv.frames y ?_) ?_ ?_ ?_
    · simp only [StrandState.detach, count_enter, count_setPed, count_setFrame, count_setNode] at knownY
      omega
    · simp [StrandState.detach, new, same]
    · simpa [current] using Ne.symm same
    · intro w' elsewhere
      simp [StrandState.detach, elsewhere]

/-- A call. -/
theorem StrandInv.callFunction (inv : StrandInv start root s) {w : W} {callee rest : StrandCode}
    (at_ : (s.frame x).place = .running w) (code : (s.frame x).code = .call callee rest) :
    StrandInv start root (s.callFunction w x callee rest) := by
  have known : x < s.count := inv.known at_ (by simp)
  have other : x ≠ s.count := by omega
  obtain ⟨p, atP, hangs, current, stolen, ped⟩ := inv.frameAt at_ (by simp)
  have into : start.follow ((s.frame x).path ++ [.into]) = some ⟨callee, p.rank, p.chain⟩ :=
    atP.turn code rfl
  have next : start.follow ((s.frame x).path ++ [.next]) =
      some ⟨rest, endRank callee p.rank, p.chain⟩ := atP.turn code rfl
  have waits := Ages.setFrame (s := s) (x := x) start
    { s.frame x with code := rest, path := (s.frame x).path ++ [.next], place := .calling s.count }
    rfl rfl (by simp [Live, at_]) (.inr ⟨rfl, p, atP⟩)
  have ages : Ages start s (s.callFunction w x callee rest) := waits.trans (.enter w _)
  have frameX : (s.callFunction w x callee rest).frame x = { s.frame x with
      code := rest, path := (s.frame x).path ++ [.next], place := .calling s.count } := by
    simp [StrandState.callFunction, other]
  refine inv.of_ages ages ?_ ?_ ?_
  · intro y unknown
    have before := inv.fresh y
    simp only [StrandState.callFunction] at unknown ⊢
    grind -linarith
  · intro w' none_
    have before := inv.idle w'
    simp only [StrandState.callFunction] at none_ ⊢
    grind -linarith
  · intro y knownY
    have under := ages.under hangs
    by_cases new : y = s.count
    · subst new
      refine ⟨⟨callee, p.rank, p.chain⟩, ?_, ?_, ?_⟩
      · simpa [At, StrandState.callFunction] using into
      · simpa [StrandState.callFunction] using ages.hangs hangs
      · have helpers : ((s.callFunction w x callee rest).frame s.count).helpers =
            (s.frame x).helpers := by simp [StrandState.callFunction]
        have link : (s.callFunction w x callee rest).link s.count p.rank = s.link x p.rank := by
          simp only [StrandState.link, helpers, under]
        have place : ((s.callFunction w x callee rest).frame s.count).place = .running w := by
          simp [StrandState.callFunction]
        rw [place]
        refine ⟨by simp [StrandState.callFunction], ?_, ?_⟩
        · simpa [StrandState.callFunction] using stolen
        · rw [link, ← ped]
          simp [StrandState.callFunction]
    by_cases same : y = x
    · subst same
      refine ⟨⟨rest, endRank callee p.rank, p.chain⟩, ?_, ?_, ?_⟩
      · simpa [At, frameX] using next
      · rw [frameX]
        exact ages.hangs hangs
      · rw [frameX]
        refine ⟨by simp [StrandState.callFunction], ?_, ?_⟩
        · simp [StrandState.callFunction, other]
        · intro q atQ
          have atCallee : start.follow ((s.frame y).path ++ [.into]) = some q := by
            simpa [StrandState.callFunction] using atQ.1
          obtain rfl := Option.some.inj (into.symm.trans atCallee)
          rfl
    refine ages.elsewhere (w := w) (inv.frames y ?_) ?_ ?_ ?_
    · simp only [StrandState.callFunction, count_enter, count_setFrame] at knownY
      omega
    · simp [StrandState.callFunction, new, same]
    · simpa [current] using Ne.symm same
    · intro w' elsewhere
      simp [StrandState.callFunction, elsewhere]

/-- A function runs on in the next strand, whose rank its worker has. -/
theorem StrandInv.goOn (inv : StrandInv start root s) {w : W} {rest : StrandCode} (rank : UInt64)
    {p : StrandPosition} (at_ : (s.frame x).place = .running w) (atP : s.At start x p)
    (next : start.follow ((s.frame x).path ++ [.next]) = some ⟨rest, rank, p.chain⟩) :
    StrandInv start root
      ((s.setPed w { rank := rank, parent := some (s.under (s.frame x).helpers) }).goOn x rest) := by
  obtain ⟨q, atQ, hangs, current, stolen, ped⟩ := inv.frameAt at_ (by simp)
  obtain rfl : p = q := Option.some.inj (atP.1.symm.trans atQ.1)
  have turned := Ages.setFrame
    (s := s.setPed w { rank := rank, parent := some (s.under (s.frame x).helpers) }) (x := x) start
    { s.frame x with code := rest, path := (s.frame x).path ++ [.next] }
    rfl rfl (by simp [Live, at_]) (.inr ⟨rfl, p, atP⟩)
  have ages : Ages start s
      ((s.setPed w { rank := rank, parent := some (s.under (s.frame x).helpers) }).goOn x rest) :=
    (Ages.setPed w _).trans (turned.trans (.starting _))
  refine inv.of_touched ages w [x] rfl ?_ ?_ ?_ ?_ ?_ ?_
  · simpa using inv.known at_ (by simp)
  · intro y other
    simp only [List.mem_singleton] at other
    simp [StrandState.goOn, other]
  · intro y other
    simpa [current] using Ne.symm (List.mem_singleton.not.mp other)
  · intro w' elsewhere
    simp [StrandState.goOn, elsewhere]
  · intro _
    simpa [StrandState.goOn] using stolen
  · intro y here
    obtain rfl := List.mem_singleton.mp here
    refine ages.runs (p := ⟨rest, rank, p.chain⟩) (w := w) hangs ?_ ?_ ?_ ?_ ?_ ?_
    · simp [StrandState.goOn]
    · simpa [At, StrandState.goOn] using next
    · simpa [StrandState.goOn] using at_
    · simpa [StrandState.goOn] using current
    · simpa [StrandState.goOn] using stolen
    · simp [StrandState.goOn, StrandState.link]

/-- What a frame that leaves its worker in the strand `p` keeps of its pedigree. -/
def StrandFrame.Parked (link : PedigreeNode) (p : StrandPosition) (frame : StrandFrame W) : Prop :=
  match frame.place with
  | .stalled => frame.pedigree_unsynched = true ∧ frame.parent_pedigree = link
  | .suspended saved_ped => saved_ped = link
  | .exiting rank => rank = p.rank ∧ p.code = .ret
  | .returned => True
  | _ => False

/-- A function leaves its worker. -/
theorem StrandInv.park (inv : StrandInv start root s) {w : W} (at_ : (s.frame x).place = .running w)
    (ped : PedigreeNode) (frame : StrandFrame W) (helper : frame.helper = (s.frame x).helper)
    (helpers : frame.helpers = (s.frame x).helpers) (path : frame.path = (s.frame x).path)
    (code : frame.code = (s.frame x).code)
    (parked : ∀ p, s.At start x p → s.ped w = s.link x p.rank → frame.Parked (s.link x p.rank) p) :
    StrandInv start root (((s.setPed w ped).setFrame x frame).setCurrent w none) := by
  obtain ⟨p, atP, hangs, current, stolen, own⟩ := inv.frameAt at_ (by simp)
  have left := Ages.setFrame (s := s.setPed w ped) (x := x) start frame
    helper helpers (by simp [Live, at_]) (.inl ⟨path, code⟩)
  have ages : Ages start s (((s.setPed w ped).setFrame x frame).setCurrent w none) :=
    (Ages.setPed w ped).trans (left.trans (.setCurrent w none))
  refine inv.of_touched ages w [x] rfl ?_ ?_ ?_ ?_ ?_ ?_
  · simpa using inv.known at_ (by simp)
  · intro y other
    simp only [List.mem_singleton] at other
    simp [other]
  · intro y other
    simpa [current] using Ne.symm (List.mem_singleton.not.mp other)
  · intro w' elsewhere
    simp [elsewhere]
  · intro _
    simpa using stolen
  · intro y here
    obtain rfl := List.mem_singleton.mp here
    have frameY : (((s.setPed w ped).setFrame y frame).setCurrent w none).frame y = frame := by simp
    have link := ages.link hangs (by rw [frameY, helpers]) p.rank
    refine ⟨p, ?_, ?_, ?_⟩
    · rw [At, frameY, path, code]
      exact atP
    · rw [frameY, helpers]
      exact ages.hangs hangs
    · have kept := parked p atP own
      rw [frameY]
      unfold StrandFrame.Parked at kept
      cases place : frame.place <;> simp only [place] at kept
      · exact ⟨by rw [frameY, kept.1], by rw [frameY, link, kept.2]⟩
      · exact kept.trans link.symm
      · exact kept
      · trivial

/-- A worker without a frame goes on with a function in the strand that its pedigree is given for. -/
theorem StrandInv.take (inv : StrandInv start root s) {w : W} (idle : s.current w = none)
    (active : (s.frame x).place ≠ .returned) (frame : StrandFrame W) (ped : PedigreeNode)
    (helper : frame.helper = (s.frame x).helper) (helpers : frame.helpers = (s.frame x).helpers)
    (path : frame.path = (s.frame x).path) (code : frame.code = (s.frame x).code)
    (place : frame.place = .running w)
    (link : ∀ p, s.At start x p → s.PlaceHolds start x p (s.frame x).place → ped = s.link x p.rank) :
    StrandInv start root (((s.setPed w ped).setFrame x frame).setCurrent w (some x)) := by
  obtain ⟨p, atP, hangs, holds⟩ := inv.frameAt rfl active
  have taken := Ages.setFrame (s := s.setPed w ped) (x := x) start frame
    helper helpers (fun _ => active) (.inl ⟨path, code⟩)
  have ages : Ages start s (((s.setPed w ped).setFrame x frame).setCurrent w (some x)) :=
    (Ages.setPed w ped).trans (taken.trans (.setCurrent w _))
  refine inv.of_touched ages w [x] rfl ?_ ?_ ?_ ?_ ?_ ?_
  · simpa using inv.known rfl active
  · intro y other
    simp only [List.mem_singleton] at other
    simp [other]
  · intro y _
    simp [idle]
  · intro w' elsewhere
    simp [elsewhere]
  · simp
  · intro y here
    obtain rfl := List.mem_singleton.mp here
    refine ages.runs (p := p) (w := w) hangs ?_ ?_ ?_ ?_ ?_ ?_
    · simpa using helpers
    · simpa [At, path, code] using atP
    · simpa using place
    · simp
    · simpa using inv.idle w idle
    · simpa using link p atP holds

/-- A function becomes the next frame of a worker without one. -/
theorem StrandInv.queue (inv : StrandInv start root s) {w : W} (idle : s.current w = none)
    (active : (s.frame x).place ≠ .returned) (frame : StrandFrame W) (stolen : Bool)
    (helper : frame.helper = (s.frame x).helper) (helpers : frame.helpers = (s.frame x).helpers)
    (path : frame.path = (s.frame x).path) (code : frame.code = (s.frame x).code)
    (place : frame.place = .next w)
    (setup : ∀ p, s.At start x p → s.PlaceHolds start x p (s.frame x).place → ∀ pedigree,
      setup_for_execution_pedigree stolen frame.pedigree_unsynched frame.parent_pedigree pedigree =
        s.link x p.rank) :
    StrandInv start root (((s.setFrame x frame).setStolen w stolen).setCurrent w (some x)) := by
  obtain ⟨p, atP, hangs, holds⟩ := inv.frameAt rfl active
  have queued := Ages.setFrame (s := s) (x := x) start frame
    helper helpers (fun _ => active) (.inl ⟨path, code⟩)
  have ages : Ages start s (((s.setFrame x frame).setStolen w stolen).setCurrent w (some x)) :=
    queued.trans ((Ages.setStolen w stolen).trans (.setCurrent w _))
  refine inv.of_touched ages w [x] rfl ?_ ?_ ?_ ?_ ?_ ?_
  · simpa using inv.known rfl active
  · intro y other
    simp only [List.mem_singleton] at other
    simp [other]
  · intro y _
    simp [idle]
  · intro w' elsewhere
    simp [elsewhere]
  · simp
  · intro y here
    obtain rfl := List.mem_singleton.mp here
    have frameY : (((s.setFrame y frame).setStolen w stolen).setCurrent w (some y)).frame y = frame := by
      simp
    have link := ages.link hangs (by rw [frameY, helpers]) p.rank
    refine ⟨p, ?_, ?_, ?_⟩
    · rw [At, frameY, path, code]
      exact atP
    · rw [frameY, helpers]
      exact ages.hangs hangs
    · rw [frameY, place]
      refine ⟨by simp, ?_⟩
      intro pedigree
      rw [frameY, link, ← setup p atP holds pedigree]
      simp

omit [DecidableEq W] in
/-- How many functions a frame waits for has nothing to do with its pedigree. -/
theorem StrandInv.setChildren (inv : StrandInv start root s) (x : Nat) (children : Nat) :
    StrandInv start root (s.setFrame x { s.frame x with children := children }) := by
  have ages : Ages start s (s.setFrame x { s.frame x with children := children }) :=
    .setFrame _ _ rfl rfl (fun active => active) (.inl ⟨rfl, rfl⟩)
  refine inv.of_ages ages ?_ ?_ ?_
  · intro y unknown
    have before := inv.fresh y unknown
    by_cases same : y = x
    · subst same
      simpa using before
    · simpa [same] using before
  · exact inv.idle
  · intro y knownY
    by_cases same : y = x
    · subst same
      obtain ⟨p, atP, hangs, holds⟩ := inv.frames y knownY
      have frameY : (s.setFrame y { s.frame y with children := children }).frame y =
          { s.frame y with children := children } := by simp
      have link : ∀ rank, (s.setFrame y { s.frame y with children := children }).link y rank =
          s.link y rank := ages.link hangs (by rw [frameY])
      refine ⟨p, by rwa [At, frameY], by rw [frameY]; exact ages.hangs hangs, ?_⟩
      rw [frameY]
      cases place : (s.frame y).place <;> rw [place] at holds
      · exact ⟨holds.1, holds.2.1, holds.2.2.trans (link _).symm⟩
      · refine ⟨holds.1, ?_⟩
        intro pedigree
        rw [link, ← holds.2 pedigree, frameY]
        rfl
      · obtain ⟨knownC, rank, next, saved, node⟩ := holds
        refine ⟨knownC, rank, next, by rw [frameY, link, saved], ?_⟩
        intro live
        obtain ⟨liveC, kept⟩ := ages.live _ knownC live
        rw [ages.helper _ knownC, kept, link, node liveC]
      · obtain ⟨knownC, helpers, ends⟩ := holds
        refine ⟨knownC, by rw [frameY, ages.helpers _ knownC, helpers], ?_⟩
        intro q' atQ'
        obtain ⟨q, atQ, sameEnd⟩ := ages.ends _ knownC q' atQ'
        exact sameEnd.trans (ends q atQ)
      · exact ⟨by rw [frameY, holds.1], by rw [frameY, link, holds.2]⟩
      · exact holds.trans (link _).symm
      · exact holds
      · trivial
    · exact ages.frameHolds (inv.frames y knownY) (by simp [same]) (fun _ _ => ⟨rfl, rfl, rfl⟩)

/-- `provably_good_steal` on a worker that has left its frame. -/
theorem StrandInv.provablyGoodSteal (inv : StrandInv start root s) {w : W} (idle : s.current w = none) :
    StrandInv start root (s.provablyGoodSteal w x) := by
  unfold StrandState.provablyGoodSteal
  split
  · rename_i ready
    have queued := inv.queue idle (by simp [ready.1]) { s.frame x with
      place := .next w, unsynched := false } false rfl rfl rfl rfl rfl (by
        intro p _ holds pedigree
        rw [ready.1] at holds
        simp [setup_for_execution_pedigree, holds.1, holds.2])
    have stolen : (s.setFrame x { s.frame x with place := .next w, unsynched := false }).setStolen w
        false = s.setFrame x { s.frame x with place := .next w, unsynched := false } := by
      have before := inv.idle w idle
      simp only [setStolen]
      rw [← before]
      simp [StrandState.setFrame]
    rwa [stolen] at queued
  · have same : s.setCurrent w none = s := by
      simp only [setCurrent]
      rw [← idle, Function.update_eq_self]
    rwa [same]

/-- The frame that a worker had does not matter to `provably_good_steal`. -/
theorem provablyGoodSteal_setCurrent (s : StrandState W) (w : W) (current : Option Nat) (x : Nat) :
    (s.setCurrent w current).provablyGoodSteal w x = s.provablyGoodSteal w x := by
  unfold StrandState.provablyGoodSteal
  by_cases ready : (s.frame x).place = .stalled ∧ (s.frame x).children = 0
  · simp [ready, setCurrent, setFrame]
  · simp [ready, setCurrent]

omit [DecidableEq W] in
/-- What the last step started and what was stored in the leaf do not matter. -/
theorem StrandInv.record (inv : StrandInv start root s) (started : Option Nat) (leaf : Option UInt64) :
    StrandInv start root { s with started := started, leaf := leaf } := by
  have ages : Ages start s { s with started := started, leaf := leaf } :=
    .of_eq (fun _ => rfl) (fun _ => rfl) rfl
  refine inv.of_ages ages inv.fresh inv.idle ?_
  intro x known
  exact ages.frameHolds (inv.frames x known) rfl (fun _ _ => ⟨rfl, rfl, rfl⟩)

/-- A sync. -/
theorem StrandInv.sync (inv : StrandInv start root s) {w : W} {rest : StrandCode}
    (at_ : (s.frame x).place = .running w) (code : (s.frame x).code = .sync rest) :
    StrandInv start root (s.sync w x rest) := by
  obtain ⟨p, atP, hangs, current, stolen, ped⟩ := inv.frameAt at_ (by simp)
  unfold StrandState.sync
  split
  · have parked := inv.park at_ (s.ped w)
      { s.frame x with place := .stalled, parent_pedigree := s.ped w, pedigree_unsynched := true }
      rfl rfl rfl rfl (fun p _ ped => ⟨rfl, ped⟩)
    have same : (s.setPed w (s.ped w)) = s := by simp [setPed]
    rw [same] at parked
    have stole := parked.provablyGoodSteal (x := x) (w := w) (by simp)
    rw [provablyGoodSteal_setCurrent] at stole
    exact stole.record none _
  · have next := inv.goOn (p.rank + 1) at_ atP (atP.turn code rfl)
    rw [ped]
    exact next

/-- A `get` that finds its value. -/
theorem StrandInv.get (inv : StrandInv start root s) {w : W} {rest : StrandCode}
    (at_ : (s.frame x).place = .running w) (code : (s.frame x).code = .get rest) :
    StrandInv start root (s.goOn x rest) := by
  obtain ⟨p, atP, hangs, current, stolen, ped⟩ := inv.frameAt at_ (by simp)
  have next := inv.goOn p.rank at_ atP (atP.turn code rfl)
  have same : s.setPed w (s.link x p.rank) = s := by
    rw [← ped]
    simp [setPed]
  simp only [StrandState.link] at same
  rwa [same] at next

/-- A function suspends with its deque. -/
theorem StrandInv.suspend (inv : StrandInv start root s) {w : W}
    (at_ : (s.frame x).place = .running w) : StrandInv start root (s.suspend w x) := by
  obtain ⟨p, atP, hangs, current, stolen, ped⟩ := inv.frameAt at_ (by simp)
  have parked := inv.park at_ { rank := 0, parent := none }
    { s.frame x with place := .suspended (s.ped w) }
    rfl rfl rfl rfl (fun p _ ped => ped)
  have same : s.setStolen w false = s := by
    rw [← stolen]
    simp [setStolen]
  have state : s.suspend w x = { (((s.setStolen w false).setPed w { rank := 0, parent := none }).setFrame x
      { s.frame x with place := .suspended (s.ped w) }).setCurrent w none with started := none } := rfl
  rw [state, same]
  exact parked.record none _

/-- A suspended function goes on. -/
theorem StrandInv.resume (inv : StrandInv start root s) {w : W} {saved_ped : PedigreeNode}
    (at_ : (s.frame x).place = .suspended saved_ped) (idle : s.current w = none) :
    StrandInv start root (s.resume w x saved_ped) := by
  have taken := inv.take idle (by simp [at_]) { s.frame x with place := .running w } saved_ped rfl rfl rfl rfl rfl (by
      intro p _ holds
      rw [at_] at holds
      exact holds)
  exact taken.record (some x) _

/-- A frame is stolen. -/
theorem StrandInv.steal (inv : StrandInv start root s) {w : W} {child : Nat}
    (at_ : (s.frame x).place = .detached child) (idle : s.current w = none) :
    StrandInv start root (s.steal w x child) := by
  have setup : ∀ p, s.At start x p → s.PlaceHolds start x p (s.frame x).place → ∀ flag pedigree,
      setup_for_execution_pedigree true flag (s.frame x).parent_pedigree pedigree =
        s.link x p.rank := by
    intro p _ holds flag pedigree
    rw [at_] at holds
    obtain ⟨_, rank, next, saved, _⟩ := holds
    simp [setup_for_execution_pedigree, saved, next, StrandState.link]
  have queued (children : Nat) (unsynched : Bool) := inv.queue idle (by simp [at_])
    { s.frame x with children := children, unsynched := unsynched, place := .next w }
    true rfl rfl rfl rfl rfl (fun p atP holds => setup p atP holds _)
  unfold StrandState.steal
  cases (s.frame child).kind <;> exact (queued _ _).record none _

/-- The next frame of a worker is set up. -/
theorem StrandInv.setupForExecution (inv : StrandInv start root s) {w : W}
    (at_ : (s.frame x).place = .next w) : StrandInv start root (s.setupForExecution w x) := by
  obtain ⟨p, atP, hangs, current, setup⟩ := inv.frameAt at_ (by simp)
  have own := setup (s.ped w)
  have runs := Ages.setFrame
    (s := s.setPed w (setup_for_execution_pedigree (s.work_stolen w) (s.frame x).pedigree_unsynched
      (s.frame x).parent_pedigree (s.ped w))) (x := x) start
    { s.frame x with place := .running w, pedigree_unsynched := false }
    rfl rfl (by simp [Live, at_]) (.inl ⟨rfl, rfl⟩)
  have ages : Ages start s (s.setupForExecution w x) :=
    (Ages.setPed w _).trans (runs.trans ((Ages.setStolen w false).trans (.starting _)))
  refine inv.of_touched ages w [x] rfl ?_ ?_ ?_ ?_ ?_ ?_
  · simpa using inv.known at_ (by simp)
  · intro y other
    simp only [List.mem_singleton] at other
    simp [StrandState.setupForExecution, other]
  · intro y other
    simpa [current] using Ne.symm (List.mem_singleton.not.mp other)
  · intro w' elsewhere
    simp [StrandState.setupForExecution, elsewhere]
  · simp [StrandState.setupForExecution]
  · intro y here
    obtain rfl := List.mem_singleton.mp here
    refine ages.runs (p := p) (w := w) hangs ?_ ?_ ?_ ?_ ?_ ?_
    · simp [StrandState.setupForExecution]
    · simpa [At, StrandState.setupForExecution] using atP
    · simp [StrandState.setupForExecution]
    · simpa [StrandState.setupForExecution] using current
    · simp [StrandState.setupForExecution]
    · simpa [StrandState.setupForExecution] using own

omit [DecidableEq W] in
/-- The node of a strand when a frame is written that keeps its helpers. -/
theorem link_setFrame (frame : StrandFrame W) (helper : frame.helper = (s.frame x).helper)
    (helpers : frame.helpers = (s.frame x).helpers) (y : Nat) (rank : UInt64) :
    (s.setFrame x frame).link y rank = s.link y rank := by
  have frameHelpers : ((s.setFrame x frame).frame y).helpers = (s.frame y).helpers := by
    by_cases same : y = x
    · subst same
      simpa using helpers
    · simp [same]
  have under : (s.setFrame x frame).under (s.frame y).helpers = s.under (s.frame y).helpers := by
    cases (s.frame y).helpers with
    | nil => rfl
    | cons h _ =>
        by_cases same : h = x
        · subst same
          simpa [StrandState.under] using helper
        · simp [StrandState.under, same]
  simp only [StrandState.link, frameHelpers, under]

/-- A function has returned and another one goes on on its worker, with the pedigree `ped`. -/
theorem StrandInv.handOver (inv : StrandInv start root s) {w : W} {y : Nat} (ped : PedigreeNode)
    (at_ : (s.frame x).place = .running w) (other : y ≠ x) (active : (s.frame y).place ≠ .returned)
    (link : ∀ p, s.At start y p → s.PlaceHolds start y p (s.frame y).place → ped = s.link y p.rank) :
    StrandInv start root
      ((((s.setPed w ped).setPlace x .returned).setPlace y (.running w)).setCurrent w (some y)) := by
  obtain ⟨p, atP, hangs, holds⟩ := inv.frameAt (x := y) rfl active
  have own := link p atP holds
  have parked := inv.park at_ ped { s.frame x with place := .returned }
    rfl rfl rfl rfl (fun _ _ _ => trivial)
  have frameY : ((((s.setPed w ped).setFrame x { s.frame x with place := .returned }).setCurrent w
      none).frame y) = s.frame y := by simp [other]
  have taken := parked.take (w := w) (x := y) (by simp) (by rw [frameY]; exact active)
    { s.frame y with place := .running w } ped (by rw [frameY]) (by rw [frameY])
    (by rw [frameY]) (by rw [frameY]) rfl (by
      intro q atQ _
      have atY : s.At start y q := by rwa [At, frameY] at atQ
      obtain rfl := Option.some.inj (atP.1.symm.trans atY.1)
      exact own.trans (link_setFrame (s := s.setPed w ped) (x := x)
        { s.frame x with place := .returned } rfl rfl y p.rank).symm)
  have state : ((((s.setPed w ped).setPlace x .returned).setPlace y (.running w)).setCurrent w (some y)) =
      (((((s.setPed w ped).setFrame x { s.frame x with place := .returned }).setCurrent w none).setPed w
        ped).setFrame y { s.frame y with place := .running w }).setCurrent w (some y) := by
    simp [setPlace, setPed, setFrame, setCurrent, other]
  rw [state]
  exact taken

/-- A called function returns. -/
theorem StrandInv.returnToCaller (inv : StrandInv start root s) {w : W} {caller : Nat}
    (at_ : (s.frame x).place = .running w) (code : (s.frame x).code = .ret)
    (calls : (s.frame caller).place = .calling x) :
    StrandInv start root (s.returnToCaller w x caller) := by
  have other : caller ≠ x := by
    rintro rfl
    simp [at_] at calls
  obtain ⟨p, atP, hangs, current, stolen, ped⟩ := inv.frameAt at_ (by simp)
  have handed := inv.handOver (s.ped w) at_ other (by simp [calls]) (by
    intro q _ holds
    rw [calls] at holds
    obtain ⟨_, helpers, ends⟩ := holds
    have same : p.rank = q.rank := by
      have := ends p atP
      rwa [atP.2, code, endRank] at this
    simp only [ped, StrandState.link, helpers, same])
  have same : s.setPed w (s.ped w) = s := by simp [setPed]
  rw [same] at handed
  exact handed.record (some caller) _

/-- A spawned function or a future returns to a parent that has not been stolen. -/
theorem StrandInv.undoDetach (inv : StrandInv start root s) {w : W} {parent : Nat}
    (at_ : (s.frame x).place = .running w) (waits : (s.frame parent).place = .detached x) :
    StrandInv start root (s.undoDetach w x parent) := by
  have other : parent ≠ x := by
    rintro rfl
    simp [at_] at waits
  have live : s.Live x := by simp [Live, at_]
  have handed := inv.handOver (y := parent)
    { rank := (s.node (s.frame x).helper).rank + 1, parent := (s.node (s.frame x).helper).parent }
    at_ other (by simp [waits]) (by
      intro q _ holds
      rw [waits] at holds
      obtain ⟨_, rank, next, _, node⟩ := holds
      simp [node live, next, StrandState.link])
  exact handed.record (some parent) _

/-- A spawned function returns to a parent that has been stolen. -/
theorem StrandInv.returnFromSpawn (inv : StrandInv start root s) {w : W} {parent : Nat}
    (at_ : (s.frame x).place = .running w) : StrandInv start root (s.returnFromSpawn w x parent) := by
  have parked := inv.park at_
    { rank := (s.node (s.frame x).helper).rank + 1, parent := (s.node (s.frame x).helper).parent }
    { s.frame x with place := .returned } rfl rfl rfl rfl (fun _ _ _ => trivial)
  have counted := parked.setChildren parent
    ((((s.leaveFrame w x).setPlace x .returned).frame parent).children - 1)
  have stole := counted.provablyGoodSteal (x := parent) (w := w) (by simp)
  let left := (s.leaveFrame w x).setPlace x .returned
  let joined := left.setFrame parent
    { left.frame parent with children := (left.frame parent).children - 1 }
  have free : StrandInv start root ((joined.setCurrent w none).provablyGoodSteal w parent) := stole
  rw [provablyGoodSteal_setCurrent] at free
  exact free.record none _

/-- A future returns to a parent that has been stolen. -/
theorem StrandInv.returnFromFuture (inv : StrandInv start root s) {w : W}
    (at_ : (s.frame x).place = .running w) : StrandInv start root (s.returnFromFuture w x) := by
  have parked := inv.park at_
    { rank := (s.node (s.frame x).helper).rank + 1, parent := (s.node (s.frame x).helper).parent }
    { s.frame x with place := .returned } rfl rfl rfl rfl (fun _ _ _ => trivial)
  exact parked.record none _

/-- The leaf is saved on the worker that the outermost function runs on. -/
theorem StrandInv.saveLeaf (inv : StrandInv start root s) {w : W}
    (at_ : (s.frame 0).place = .running w) : StrandInv start root (s.saveLeaf w) := by
  have parked := inv.park at_ (s.ped w) { s.frame 0 with place := .returned }
    rfl rfl rfl rfl (fun _ _ _ => trivial)
  have same : s.setPed w (s.ped w) = s := by simp [setPed]
  rw [same] at parked
  exact parked.record none (some (s.ped w).rank)

/-- `suspend_return_from_initial`. -/
theorem StrandInv.suspendReturn (inv : StrandInv start root s) {w : W}
    (at_ : (s.frame 0).place = .running w) (code : (s.frame 0).code = .ret) :
    StrandInv start root (s.suspendReturn w) := by
  have parked := inv.park at_ (s.ped w) { s.frame 0 with place := .exiting (s.ped w).rank }
    rfl rfl rfl rfl (by
      intro p atP ped
      exact ⟨by rw [ped]; rfl, atP.2.trans code⟩)
  have same : s.setPed w (s.ped w) = s := by simp [setPed]
  rw [same] at parked
  exact parked.record none _

/-- Worker 0 takes the exit frame. -/
theorem StrandInv.resumeReturn (inv : StrandInv start root s) {w : W} {rank : UInt64}
    (at_ : (s.frame 0).place = .exiting rank) (idle : s.current w = none)
    (parent_pedigree : PedigreeNode) : StrandInv start root (s.resumeReturn w parent_pedigree) := by
  obtain ⟨p, atP, hangs, _⟩ := inv.frameAt at_ (by simp)
  let ped := setup_for_execution_pedigree (s.work_stolen w) false parent_pedigree (s.ped w)
  have left := Ages.setFrame (s := (s.setPed w ped).setStolen w false) (x := 0) start
    { s.frame 0 with place := .returned } rfl rfl (by simp) (.inl ⟨rfl, rfl⟩)
  have ages : Ages start s
      ((((s.setPed w ped).setStolen w false).setPlace 0 .returned).setCurrent w none) :=
    ((Ages.setPed w ped).trans (.setStolen w false)).trans (left.trans (.setCurrent w none))
  have kept : StrandInv start root
      ((((s.setPed w ped).setStolen w false).setPlace 0 .returned).setCurrent w none) := by
    refine inv.of_touched ages w [0] rfl ?_ ?_ ?_ ?_ ?_ ?_
    · simpa using inv.nonempty
    · intro y other
      simp only [List.mem_singleton] at other
      simp [setPlace, other]
    · intro y _
      simp [idle]
    · intro w' elsewhere
      simp [setPlace, elsewhere]
    · simp [setPlace]
    · intro y here
      obtain rfl := List.mem_singleton.mp here
      refine ⟨p, ?_, ?_, ?_⟩
      · simpa [At, setPlace] using atP
      · simpa [setPlace] using ages.hangs hangs
      · simp [setPlace, PlaceHolds]
  exact kept.record none _

omit [DecidableEq W] in
/-- Something is written where no helper is. -/
theorem StrandInv.write (inv : StrandInv start root s) {address : PedigreeAddr}
    (vacant : s.Vacant address) (value : PedigreeNode) :
    StrandInv start root (s.setNode address value) := by
  have ages : Ages start s (s.setNode address value) := .setNode vacant value
  refine inv.of_ages ages inv.fresh inv.idle ?_
  intro x known
  exact ages.frameHolds (inv.frames x known) rfl (fun _ _ => ⟨rfl, rfl, rfl⟩)

/-- The function that runs on a worker. -/
theorem running_eq_some {w : W} (running : s.running w = some x) :
    s.current w = some x ∧ (s.frame x).place = .running w := by
  unfold StrandState.running at running
  grind -linarith

/-- Every step keeps the invariant. -/
theorem StrandInv.step {worker0 : W} {label : StrandLabel W} (inv : StrandInv start root s)
    (taken : strandStep worker0 s label = some s') : StrandInv start root s' := by
  cases label with
  | detach w address =>
    simp only [strandStep] at taken
    split at taken
    · rename_i x running
      have at_ := (running_eq_some running).2
      split at taken
      · rename_i vacant
        split at taken
        · rename_i child rest code
          obtain rfl := Option.some.inj taken
          exact inv.detach at_ vacant (.inl code)
        · rename_i child rest code
          obtain rfl := Option.some.inj taken
          exact inv.detach at_ vacant (.inr code)
        · cases taken
      · cases taken
    · cases taken
  | call w =>
    simp only [strandStep] at taken
    split at taken
    · rename_i x running
      split at taken
      · rename_i callee rest code
        obtain rfl := Option.some.inj taken
        exact inv.callFunction (running_eq_some running).2 code
      · cases taken
    · cases taken
  | sync w =>
    simp only [strandStep] at taken
    split at taken
    · rename_i x running
      split at taken
      · rename_i rest code
        obtain rfl := Option.some.inj taken
        exact inv.sync (running_eq_some running).2 code
      · cases taken
    · cases taken
  | get w =>
    simp only [strandStep] at taken
    split at taken
    · rename_i x running
      split at taken
      · rename_i rest code
        obtain rfl := Option.some.inj taken
        exact inv.get (running_eq_some running).2 code
      · cases taken
    · cases taken
  | return_ w =>
    simp only [strandStep] at taken
    split at taken
    · rename_i x running
      have at_ := (running_eq_some running).2
      split at taken
      · rename_i done
        split at taken
        · cases taken
        · rename_i caller kind
          split at taken
          · rename_i calls
            obtain rfl := Option.some.inj taken
            exact inv.returnToCaller at_ done.1 calls
          · cases taken
        · rename_i parent kind
          split at taken
          · rename_i waits
            obtain rfl := Option.some.inj taken
            exact inv.undoDetach at_ waits
          · obtain rfl := Option.some.inj taken
            exact inv.returnFromSpawn at_
        · rename_i parent kind
          split at taken
          · rename_i waits
            obtain rfl := Option.some.inj taken
            exact inv.undoDetach at_ waits
          · obtain rfl := Option.some.inj taken
            exact inv.returnFromFuture at_
      · cases taken
    · cases taken
  | suspend w =>
    simp only [strandStep] at taken
    split at taken
    · rename_i x running
      obtain rfl := Option.some.inj taken
      exact inv.suspend (running_eq_some running).2
    · cases taken
  | resume w x =>
    simp only [strandStep] at taken
    split at taken
    · rename_i saved_ped at_
      split at taken
      · rename_i idle
        obtain rfl := Option.some.inj taken
        exact inv.resume at_ idle
      · cases taken
    · cases taken
  | steal w x =>
    simp only [strandStep] at taken
    split at taken
    · rename_i child at_
      split at taken
      · rename_i idle
        obtain rfl := Option.some.inj taken
        exact inv.steal at_ idle
      · cases taken
    · cases taken
  | setupForExecution w =>
    simp only [strandStep] at taken
    split at taken
    · rename_i x current
      split at taken
      · rename_i at_
        obtain rfl := Option.some.inj taken
        exact inv.setupForExecution at_
      · cases taken
    · cases taken
  | returnDirect =>
    simp only [strandStep] at taken
    split at taken
    · rename_i done
      obtain rfl := Option.some.inj taken
      exact inv.saveLeaf (running_eq_some done.1).2
    · cases taken
  | suspendReturn w =>
    simp only [strandStep] at taken
    split at taken
    · rename_i done
      obtain rfl := Option.some.inj taken
      exact inv.suspendReturn (running_eq_some done.1).2 done.2.1
    · cases taken
  | resumeReturn parent_pedigree =>
    simp only [strandStep] at taken
    split at taken
    · rename_i rank at_
      split at taken
      · rename_i idle
        obtain rfl := Option.some.inj taken
        exact inv.resumeReturn at_ idle parent_pedigree
      · cases taken
    · cases taken
  | write address value =>
    simp only [strandStep] at taken
    split at taken
    · rename_i vacant
      obtain rfl := Option.some.inj taken
      exact (inv.write vacant value).record none _
    · cases taken

/-- The invariant holds when the outermost function is entered. -/
theorem strandInv_initial (worker0 : W) (program : StrandCode) (rank root : UInt64)
    (memory : PedigreeAddr → PedigreeNode) :
    StrandInv ⟨program, rank, [root]⟩ root (.initial worker0 program rank root memory) := by
  have frame0 : ((initial worker0 program rank root memory).frame 0) =
      { (noFrame : StrandFrame W) with code := program, place := .running worker0 } := by
    simp [initial]
  have at0 : ∀ p, (initial worker0 program rank root memory).At ⟨program, rank, [root]⟩ 0 p →
      p = ⟨program, rank, [root]⟩ := by
    intro p atP
    rw [At, frame0] at atP
    exact (Option.some.inj atP.1).symm
  refine ⟨Nat.one_pos, ?_, ?_, ?_, ?_, ?_⟩
  · intro x unknown
    have other : x ≠ 0 := by
      rintro rfl
      exact absurd unknown (by simp [initial])
    simp [initial, other, noFrame]
  · intro w _
    rfl
  · simp [initial]
  · intro x known
    obtain rfl : x = 0 := Nat.lt_one_iff.mp known
    refine ⟨⟨program, rank, [root]⟩, ?_, ?_, ?_⟩
    · rw [At, frame0]
      exact ⟨rfl, rfl⟩
    · rw [frame0]
      rfl
    · rw [frame0]
      refine ⟨by simp [initial], rfl, ?_⟩
      rw [StrandState.link, frame0]
      simp [initial, StrandState.under, noFrame]
  · intro p atP
    rw [at0 p atP]

/-- The invariant holds in every reachable state. -/
theorem strandInv_of_reachable {worker0 : W} {program : StrandCode} {rank : UInt64}
    (reachable : (strandMachine worker0 program rank root).Reachable s) :
    StrandInv ⟨program, rank, [root]⟩ root s := by
  refine reachable.invariant ?_ ?_
  · rintro s ⟨memory, rfl⟩
    exact strandInv_initial worker0 program rank root memory
  · intro s label s' _ inv taken
    exact inv.step taken

section Chain

variable {node : PedigreeAddr → PedigreeNode} {rank first : UInt64} {address : PedigreeAddr}
  {tail : List UInt64}

theorem not_chainIs_nil {start : PedigreeNode} : ¬ ChainIs node start [] := nofun

theorem chainIs_none : ChainIs node { rank := rank, parent := none } (first :: tail) ↔
    rank = first ∧ tail = [] := Iff.rfl

theorem chainIs_some : ChainIs node { rank := rank, parent := some address } (first :: tail) ↔
    rank = first ∧ ChainIs node (node address) tail := Iff.rfl

instance ChainIs.decidable (node : PedigreeAddr → PedigreeNode) : (start : PedigreeNode) →
    (chain : List UInt64) → Decidable (ChainIs node start chain)
  | _, [] => .isFalse not_chainIs_nil
  | ⟨rank, none⟩, first :: tail => inferInstanceAs (Decidable (rank = first ∧ tail = []))
  | ⟨rank, some address⟩, first :: tail =>
    have := ChainIs.decidable node (node address) tail
    inferInstanceAs (Decidable (rank = first ∧ ChainIs node (node address) tail))

end Chain

omit [DecidableEq W] in
/-- While the helpers of a chain are there, it is read off their nodes. -/
theorem chainIs_of_hangs (rootNode : s.node tlsRoot = { rank := root, parent := none })
    {helpers : List Nat} {chain : List UInt64} (hangs : s.Hangs root helpers chain)
    (live : ∀ h ∈ helpers, s.Live h) (rank : UInt64) (pedigree : List UInt64) :
    ChainIs s.node { rank := rank, parent := some (s.under helpers) } pedigree ↔
      pedigree = rank :: chain := by
  induction helpers generalizing chain rank pedigree with
  | nil =>
      obtain rfl : chain = [root] := hangs
      match pedigree with
      | [] => simp [not_chainIs_nil]
      | [first] => simp [chainIs_some, not_chainIs_nil]
      | first :: second :: rest =>
          rw [chainIs_some, StrandState.under, rootNode, chainIs_none]
          simp [eq_comm]
  | cons h helpers ih =>
      obtain ⟨above, rest, rfl, _, node, below⟩ := hangs
      have here : s.node (s.under (h :: helpers)) =
          { rank := above, parent := some (s.under helpers) } := node (live h List.mem_cons_self)
      have further := ih below (fun h' inTail => live h' (List.mem_cons_of_mem _ inTail)) above
      match pedigree with
      | [] => simp [not_chainIs_nil]
      | first :: tail =>
          rw [chainIs_some, here, further]
          simp [eq_comm]

/-- The helpers that the pedigree of a function goes through are there. -/
def StrandState.HelpersLive (s : StrandState W) (x : Nat) : Prop :=
  ∀ h ∈ (s.frame x).helpers, s.Live h

instance (s : StrandState W) (x : Nat) : Decidable (s.HelpersLive x) :=
  inferInstanceAs (Decidable (∀ h ∈ _, _))

omit [DecidableEq W] in
/-- A function whose helpers are there has the pedigree of its strand in the serial execution. -/
theorem StrandInv.sees {program : StrandCode} {rank : UInt64}
    (inv : StrandInv ⟨program, rank, [root]⟩ root s) {w : W} (at_ : (s.frame x).place = .running w)
    (live : s.HelpersLive x) (pedigree : List UInt64) :
    ChainIs s.node (s.ped w) pedigree ↔
      ((s.frame x).path, pedigree) ∈ serialStrands program rank [root] := by
  obtain ⟨p, atP, hangs, current, stolen, ped⟩ := inv.frameAt at_ (by simp)
  rw [ped, StrandState.link, chainIs_of_hangs inv.rootNode hangs live, mem_serialStrands atP.1]

/-- A step that starts a strand leaves its function running. -/
theorem running_of_started {worker0 : W} {label : StrandLabel W}
    (taken : strandStep worker0 s label = some s') (started : s'.started = some x) :
    ∃ w, (s'.frame x).place = .running w := by
  have goesOn (t : StrandState W) (y : Nat) (rest : StrandCode) (w : W)
      (before : (t.frame y).place = .running w) (here : t.goOn y rest = s') :
      ∃ w, (s'.frame x).place = .running w := by
    subst here
    obtain rfl : y = x := Option.some.inj started
    exact ⟨w, by simpa [StrandState.goOn] using before⟩
  have nothing (here : s'.started = none) : ∃ w, (s'.frame x).place = .running w := by
    rw [here] at started
    cases started
  have takes (t : StrandState W) (y : Nat) (w : W) (here : s' = t.starting (some y))
      (place : (t.frame y).place = .running w) : ∃ w, (s'.frame x).place = .running w := by
    subst here
    obtain rfl : y = x := Option.some.inj started
    exact ⟨w, place⟩
  cases label with
  | detach w address =>
    have runs (y : Nat) (kind : StrandKind) (child rest : StrandCode)
        (here : s.detach w y address kind child rest = s') : (s'.frame x).place = .running w := by
      subst here
      obtain rfl : s.count = x := Option.some.inj started
      simp [StrandState.detach]
    simp only [strandStep] at taken
    grind -linarith
  | call w =>
    have runs (y : Nat) (callee rest : StrandCode)
        (here : s.callFunction w y callee rest = s') : (s'.frame x).place = .running w := by
      subst here
      obtain rfl : s.count = x := Option.some.inj started
      simp [StrandState.callFunction]
    simp only [strandStep] at taken
    grind -linarith
  | sync w =>
    simp only [strandStep] at taken
    split at taken
    · rename_i y running
      split at taken
      · obtain here := Option.some.inj taken
        unfold StrandState.sync at here
        split at here
        · exact nothing (by rw [← here]; rfl)
        · exact goesOn _ y _ w (by simpa using (running_eq_some running).2) here
      · cases taken
    · cases taken
  | get w =>
    simp only [strandStep] at taken
    split at taken
    · rename_i y running
      split at taken
      · exact goesOn s y _ w (running_eq_some running).2 (Option.some.inj taken)
      · cases taken
    · cases taken
  | return_ w =>
    have called (y caller : Nat) (here : s.returnToCaller w y caller = s') :
        ∃ w, (s'.frame x).place = .running w := by
      refine takes _ caller w here.symm ?_
      simp [setPlace]
    have undone (y parent : Nat) (here : s.undoDetach w y parent = s') :
        ∃ w, (s'.frame x).place = .running w := by
      refine takes _ parent w here.symm ?_
      simp [setPlace]
    have fromSpawn (y parent : Nat) (here : s.returnFromSpawn w y parent = s') :
        ∃ w, (s'.frame x).place = .running w := nothing (by rw [← here]; rfl)
    have fromFuture (y : Nat) (here : s.returnFromFuture w y = s') :
        ∃ w, (s'.frame x).place = .running w := nothing (by rw [← here]; rfl)
    simp only [strandStep] at taken
    grind -linarith
  | suspend w =>
    have left (y : Nat) (here : s.suspend w y = s') :
        ∃ w, (s'.frame x).place = .running w := nothing (by rw [← here]; rfl)
    simp only [strandStep] at taken
    grind -linarith
  | resume w y =>
    have taken_ (saved_ped : PedigreeNode) (here : s.resume w y saved_ped = s') :
        ∃ w, (s'.frame x).place = .running w := by
      refine takes _ y w here.symm ?_
      simp [setPlace]
    simp only [strandStep] at taken
    grind -linarith
  | steal w y =>
    have left (child : Nat) (here : s.steal w y child = s') :
        ∃ w, (s'.frame x).place = .running w := nothing (by rw [← here]; rfl)
    simp only [strandStep] at taken
    grind -linarith
  | setupForExecution w =>
    have runs (y : Nat) (here : s.setupForExecution w y = s') :
        ∃ w, (s'.frame x).place = .running w := by
      refine takes _ y w here.symm ?_
      simp
    simp only [strandStep] at taken
    grind -linarith
  | returnDirect =>
    have left (here : s.saveLeaf worker0 = s') :
        ∃ w, (s'.frame x).place = .running w := nothing (by rw [← here]; rfl)
    simp only [strandStep] at taken
    grind -linarith
  | suspendReturn w =>
    have left (here : s.suspendReturn w = s') :
        ∃ w, (s'.frame x).place = .running w := nothing (by rw [← here]; rfl)
    simp only [strandStep] at taken
    grind -linarith
  | resumeReturn parent_pedigree =>
    have left (here : s.resumeReturn worker0 parent_pedigree = s') :
        ∃ w, (s'.frame x).place = .running w := nothing (by rw [← here]; rfl)
    simp only [strandStep] at taken
    grind -linarith
  | write address value =>
    have left (here : (s.setNode address value).starting none = s') :
        ∃ w, (s'.frame x).place = .running w := nothing (by rw [← here]; rfl)
    simp only [strandStep] at taken
    grind -linarith

end Steps

end CilkL
