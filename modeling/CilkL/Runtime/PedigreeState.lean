/-
Module: CilkL.Runtime.PedigreeState
Layer: Runtime
Purpose: Every operation that sets the pedigree of a worker, with the compressed value that a build with
  PRECOMPUTE_PEDIGREES keeps beside each rank. The nodes are in memory that is used again: the union in a stack
  frame (`spawn_helper_pedigree` and `parent_pedigree`), the locals of a `cilk_for`, the leaf and the root of a
  user thread. The operations come in any order, on any workers, frames and deques; which orders the
  scheduler and the compiled code let happen is left open. Each value carries, beside what the code keeps, how
  often the node it links to had been written when it was linked.
Imports: CilkL.Library.Machine, CilkL.Library.StampedMemory
Trusted boundary: human-reviewed spec (translated from cilk-abi.c, cilk-abi-cilk-for.cpp, cilk_api.c, deque.c,
  os-unix.c, pedigrees.c, pedigrees.h and scheduler.c)
Main exports: CilkrtsPedigree, CompressionVec, PedigreeBuild, PedigreeState, PedigreeLabel,
  pedigreeStep, pedigreeMachine
Open obligations: none
-/
import CilkL.Library.Machine
import CilkL.Library.StampedMemory

namespace CilkL

/-- `__cilkrts_pedigree`, with its parent at an address; the last two fields are there in a build with
PRECOMPUTE_PEDIGREES. -/
structure CilkrtsPedigree (α : Type) where
  rank : UInt64
  parent : Option α
  length : UInt64
  actual : UInt64
deriving DecidableEq, Repr

/-- `g->big_prime`, which is `(1L << 63) - 58`. -/
def bigPrime : UInt64 := 9223372036854775750

/-- `g->ped_compression_vec`: 256 coefficients, and the memory behind them. -/
structure CompressionVec where
  entry : Nat → UInt64
  entry_lt : ∀ i < 256, entry i < bigPrime

/-- `init_pedigree_compression_vec`, on what `rand` returns and what the memory behind the array holds. -/
def initPedigreeCompressionVec (rand behind : Nat → UInt64) : CompressionVec where
  entry i := if i < 256 then rand i % bigPrime else behind i
  entry_lt i isEntry := by
    rw [if_pos isEntry]
    exact UInt64.mod_lt _ (by decide)

/-- How the runtime was built, and which stack frames are ABI 1 or later. -/
structure PedigreeBuild (α : Type) where
  /-- PRECOMPUTE_PEDIGREES. -/
  precompute : Bool
  vec : CompressionVec
  /-- `CILK_FRAME_VERSION_VALUE(sf->flags) >= 1`. -/
  abi1 : α → Bool

/-- `if (actual >= big_prime) actual %= big_prime`. -/
def reduced (actual : UInt64) : UInt64 :=
  if actual ≥ bigPrime then actual % bigPrime else actual

namespace PedigreeBuild

variable {α : Type} (build : PedigreeBuild α)

/-- `g->ped_compression_vec[length - 1]`. -/
def coefficient (length : UInt64) : UInt64 := build.vec.entry (length - 1).toNat

/-- A rank is increased by one, and the compressed value by one coefficient. -/
def bumped (pedigree : CilkrtsPedigree α) : CilkrtsPedigree α :=
  { pedigree with
    rank := pedigree.rank + 1
    actual := if build.precompute then reduced (pedigree.actual + build.coefficient pedigree.length)
      else pedigree.actual }

/-- The same with its stamp. -/
def bump (pedigree : Stamped (CilkrtsPedigree α)) : Stamped (CilkrtsPedigree α) where
  value := build.bumped pedigree.value
  stamp := pedigree.stamp

/-- A node of the given rank under a parent, with the compressed value from the parent's. -/
def under (address : α) (parent : CilkrtsPedigree α) (rank : UInt64) : CilkrtsPedigree α where
  rank := rank
  parent := some address
  length := if build.precompute then parent.length + 1 else parent.length
  actual := if build.precompute then reduced (parent.actual + rank * build.coefficient (parent.length + 1))
    else parent.actual

/-- The pedigree that `make_worker` and `deque_switch` start with. -/
def fresh : CilkrtsPedigree α where
  rank := 1
  parent := none
  length := 1
  actual := build.vec.entry 0

end PedigreeBuild

/-- `saved_ped` after `memset`. -/
def zeroPedigree {α : Type} : CilkrtsPedigree α := { rank := 0, parent := none, length := 0, actual := 0 }

/-- The pedigrees of workers `W`, nodes at addresses `α`, deques `δ` and calls `κ` of a `cilk_for` body. -/
structure PedigreeState (W α δ κ : Type) where
  /-- `w->pedigree`. -/
  ped : W → Stamped (CilkrtsPedigree α)
  memory : StampedMemory α (CilkrtsPedigree α)
  /-- `d->saved_ped`. -/
  savedPed : δ → Stamped (CilkrtsPedigree α)
  /-- `w->l->work_stolen`. -/
  workStolen : W → Bool
  /-- `CILK_FRAME_SF_PEDIGREE_UNSYNCHED`. -/
  pedigreeUnsynched : α → Bool
  /-- `saved_next_pedigree_node` of `call_cilk_for_loop_body`. -/
  savedNext : κ → Option α × Option Nat
  /-- `__cilkrts_global_pedigree_tls_counter`. -/
  tlsCounter : BitVec 32
  /-- The worker whose pedigree the last step set. -/
  set : Option W

/-- What happens next. -/
inductive PedigreeLabel (W α δ κ : Type) where
  /-- `make_worker`. -/
  | makeWorker (w : W)
  /-- `__cilkrts_get_tls_pedigree_leaf` makes the two nodes of a user thread. -/
  | createLeaf (leaf root : α)
  /-- `load_pedigree_leaf_into_user_worker`. -/
  | loadLeaf (w : W) (leaf : α)
  /-- `save_pedigree_leaf_from_user_worker`. -/
  | saveLeaf (w : W) (leaf : α)
  /-- `__cilkrts_detach(self)`, with its `call_parent`. -/
  | detach (w : W) (self callParent : α)
  /-- `update_pedigree_on_leave_frame`. -/
  | leaveFrame (w : W) (sf : α)
  /-- A sync is passed: `update_pedigree_after_sync`. -/
  | afterSync (w : W) (sf : α)
  /-- A sync waits: the pedigree is saved by `__cilkrts_sync` and `do_sync`. -/
  | doSync (w : W) (sf : α)
  /-- `w->l->work_stolen` is set by a steal or cleared by an attempt. -/
  | setStolen (w : W) (stolen : Bool)
  /-- `setup_for_execution_pedigree`, with the frame that the worker resumes. -/
  | setupForExecution (w : W) (sf : α)
  /-- A deque is made. -/
  | dequeInit (d : δ)
  /-- `deque_switch`. -/
  | dequeSwitch (w : W) (d : Option δ)
  /-- `deque_suspend` of the active deque `d`, which goes on with another or with none. -/
  | dequeSuspend (w : W) (d : δ) (newDeque : Option δ)
  /-- `cilk_for_root` saves the pedigree in its local node, after the initial `noop` has been spawned. -/
  | loopEnter (w : W) (root : α)
  /-- `call_cilk_for_loop_body` up to the call of the body. -/
  | bodyEnter (w : W) (call : κ) (leaf root : α) (low high : UInt64)
  /-- `call_cilk_for_loop_body` after it. -/
  | bodyExit (w : W) (call : κ)
  /-- `cilk_for_root` restores the pedigree. -/
  | loopExit (w : W) (root : α)
  | bumpLoopRank (w : W)
  | bumpWorkerRank (w : W)
  /-- The flags of a stack frame that is entered. -/
  | enterFrame (sf : α)
  /-- The memory is used for something else. -/
  | write (address : α) (value : CilkrtsPedigree α)
deriving DecidableEq, Repr

namespace PedigreeState

variable {W α δ κ : Type} [DecidableEq W] [DecidableEq α] [DecidableEq δ] [DecidableEq κ]

/-- The pedigree of a worker is set. -/
def install (s : PedigreeState W α δ κ) (w : W) (pedigree : Stamped (CilkrtsPedigree α)) :
    PedigreeState W α δ κ :=
  { s with ped := Function.update s.ped w pedigree, set := some w }

/-- A node is written. -/
def store (s : PedigreeState W α δ κ) (address : α) (pedigree : Stamped (CilkrtsPedigree α)) :
    PedigreeState W α δ κ :=
  { s with memory := s.memory.store address pedigree, set := none }

/-- What `saved_ped` of a deque is set to. -/
def save (s : PedigreeState W α δ κ) (d : δ) (pedigree : Stamped (CilkrtsPedigree α)) :
    PedigreeState W α δ κ :=
  { s with savedPed := Function.update s.savedPed d pedigree, set := none }

variable (build : PedigreeBuild α)

/-- `__cilkrts_get_tls_pedigree_leaf` for a thread that has no leaf; `none` where its assertion fails. -/
def createLeaf (s : PedigreeState W α δ κ) (leaf root : α) : Option (PedigreeState W α δ κ) :=
  let counter := s.tlsCounter + 1
  -- an `int` becomes a rank
  let rank := UInt64.ofBitVec (counter.signExtend 64)
  let rootNode : CilkrtsPedigree α := { rank := rank, parent := none, length := 1, actual := build.vec.entry 0 }
  let leafNode : CilkrtsPedigree α :=
    { rank := 1, parent := some root, length := 2
      actual := reduced (build.vec.entry 0 + build.vec.entry 1) }
  if leaf = root ∨ rank = -1 then none
  else
    let s := s.store root { value := rootNode, stamp := some 0 }
    some { s.store leaf (s.memory.linked root leafNode) with tlsCounter := counter }

/-- `load_pedigree_leaf_into_user_worker`; `none` where an assertion fails. -/
def loadLeaf (s : PedigreeState W α δ κ) (w : W) (leaf : α) : Option (PedigreeState W α δ κ) :=
  match (s.memory.cell leaf).value.parent with
  | none => none
  | some root =>
      if (s.memory.cell root).value.parent = none then some (s.install w (s.memory.cell leaf)) else none

/-- `save_pedigree_leaf_from_user_worker`. The compressed value that is stored goes with the worker's chain. -/
def saveLeaf (s : PedigreeState W α δ κ) (w : W) (leaf : α) : PedigreeState W α δ κ :=
  let pedigree := s.ped w
  let old := s.memory.cell leaf
  if build.precompute then
    s.store leaf
      { value := { old.value with
          rank := pedigree.value.rank, length := pedigree.value.length, actual := pedigree.value.actual }
        stamp := if pedigree.value.parent = old.value.parent then pedigree.stamp else none }
  else s.store leaf { old with value := { old.value with rank := pedigree.value.rank } }

/-- `__cilkrts_detach`; a frame is not its own caller. -/
def detach (s : PedigreeState W α δ κ) (w : W) (self callParent : α) : Option (PedigreeState W α δ κ) :=
  let pedigree := s.ped w
  if self = callParent then none
  else
    let s := s.store self pedigree
    let s := s.store callParent pedigree
    some (s.install w (s.memory.linked self (build.under self pedigree.value 1)))

/-- `update_pedigree_on_leave_frame`. -/
def leaveFrame (s : PedigreeState W α δ κ) (w : W) (sf : α) : PedigreeState W α δ κ :=
  let helper := s.memory.cell sf
  if build.abi1 sf then s.install w (build.bump helper) else { s with set := none }

/-- `update_pedigree_after_sync`. -/
def afterSync (s : PedigreeState W α δ κ) (w : W) (sf : α) : PedigreeState W α δ κ :=
  let pedigree := s.ped w
  if build.abi1 sf then s.install w (build.bump pedigree)
  else { s with set := none }

/-- A sync that waits. -/
def doSync (s : PedigreeState W α δ κ) (w : W) (sf : α) : PedigreeState W α δ κ :=
  if build.abi1 sf then
    { s.store sf (s.ped w) with pedigreeUnsynched := Function.update s.pedigreeUnsynched sf true }
  else { s with set := none }

/-- `setup_for_execution_pedigree`. -/
def setupForExecution (s : PedigreeState W α δ κ) (w : W) (sf : α) : PedigreeState W α δ κ :=
  let parentPedigree := s.memory.cell sf
  let pedigree := (s.ped w).value
  let value :=
    if s.workStolen w then build.bumped parentPedigree.value
    else if s.pedigreeUnsynched sf then parentPedigree.value
    else { pedigree with parent := parentPedigree.value.parent }
  if build.abi1 sf then
    { s.install w { parentPedigree with value := value } with
      workStolen := Function.update s.workStolen w false
      pedigreeUnsynched := Function.update s.pedigreeUnsynched sf false }
  else { s with set := none }

/-- `deque_switch`. What it writes first for a deque with a null rank is overwritten in the end. -/
def dequeSwitch (s : PedigreeState W α δ κ) (w : W) (d : Option δ) : PedigreeState W α δ κ :=
  match d with
  | none => s.install w { value := build.fresh, stamp := some 0 }
  | some d =>
      let s :=
        if (s.savedPed d).value.rank = 0 then s.install w { value := build.fresh, stamp := some 0 } else s
      let saved := s.savedPed d
      (s.save d { value := zeroPedigree, stamp := none }).install w saved

/-- `call_cilk_for_loop_body` up to the call. -/
def bodyEnter (s : PedigreeState W α δ κ) (w : W) (call : κ) (leaf root : α) (low high : UInt64) :
    Option (PedigreeState W α δ κ) :=
  if low < high ∧ leaf ≠ root then
    let saved := ((s.ped w).value.parent, (s.ped w).stamp)
    let leafNode := build.under root (s.memory.cell root).value (low + 1)
    let s := { s with savedNext := Function.update s.savedNext call saved }
    let s := s.store leaf (s.memory.linked root leafNode)
    some (s.install w (s.memory.linked leaf (build.under leaf leafNode 1)))
  else none

/-- `call_cilk_for_loop_body` after the call; `none` where the code reads a null node. -/
def bodyExit (s : PedigreeState W α δ κ) (w : W) (call : κ) : Option (PedigreeState W α δ κ) :=
  let pedigree := (s.ped w).value
  let (saved, stamp) := s.savedNext call
  if build.precompute then
    match saved with
    | none => none
    | some next =>
        let value := build.under next (s.memory.cell next).value pedigree.rank
        some (s.install w { value := value, stamp := stamp })
  else some (s.install w { value := { pedigree with parent := saved }, stamp := stamp })

/-- `cilk_for_root` at its end. -/
def loopExit (s : PedigreeState W α δ κ) (w : W) (root : α) : PedigreeState W α δ κ :=
  let loopRoot := s.memory.cell root
  s.install w (build.bump loopRoot)

/-- `__cilkrts_bump_loop_rank_internal`; `none` where the code reads a null node or its assertion fails. Only
compressed values rely on the rank of the node above. -/
def bumpLoopRank (s : PedigreeState W α δ κ) (w : W) : Option (PedigreeState W α δ κ) :=
  let pedigree := (s.ped w).value
  match pedigree.parent with
  | none => none
  | some leaf =>
      let old := s.memory.cell leaf
      let leafNode := build.bump old
      if build.precompute then
        if pedigree.length = old.value.length + 1 then
          let s := s.store leaf leafNode
          let actual := reduced (leafNode.value.actual + build.coefficient pedigree.length)
          some (s.install w (s.memory.linked leaf { pedigree with rank := 1, actual := actual }))
        else none
      else
        let s := { s with memory := s.memory.refresh leaf leafNode }
        some (s.install w { s.ped w with value := { pedigree with rank := 1 } })

/-- `__cilkrts_bump_worker_rank_internal`, on a worker. -/
def bumpWorkerRank (s : PedigreeState W α δ κ) (w : W) : PedigreeState W α δ κ :=
  s.install w (build.bump (s.ped w))

end PedigreeState

section PedigreeMachine

variable {W α δ κ : Type} [DecidableEq W] [DecidableEq α] [DecidableEq δ] [DecidableEq κ]

/-- One operation. -/
def pedigreeStep (build : PedigreeBuild α) (s : PedigreeState W α δ κ) :
    PedigreeLabel W α δ κ → Option (PedigreeState W α δ κ)
  | .makeWorker w =>
      some { s.install w { value := build.fresh, stamp := some 0 } with
        workStolen := Function.update s.workStolen w false }
  | .createLeaf leaf root => s.createLeaf build leaf root
  | .loadLeaf w leaf => s.loadLeaf w leaf
  | .saveLeaf w leaf => some (s.saveLeaf build w leaf)
  | .detach w self callParent => s.detach build w self callParent
  | .leaveFrame w sf => some (s.leaveFrame build w sf)
  | .afterSync w sf => some (s.afterSync build w sf)
  | .doSync w sf => some (s.doSync build w sf)
  | .setStolen w stolen => some { s with workStolen := Function.update s.workStolen w stolen, set := none }
  | .setupForExecution w sf => some (s.setupForExecution build w sf)
  | .dequeInit d => some (s.save d { value := zeroPedigree, stamp := none })
  | .dequeSwitch w d => some (s.dequeSwitch build w d)
  | .dequeSuspend w d newDeque =>
      -- the deque that it goes on with is another one
      if newDeque = some d then none else some ((s.save d (s.ped w)).dequeSwitch build w newDeque)
  | .loopEnter w root => some (s.store root (s.ped w))
  | .bodyEnter w call leaf root low high => s.bodyEnter build w call leaf root low high
  | .bodyExit w call => s.bodyExit build w call
  | .loopExit w root => some (s.loopExit build w root)
  | .bumpLoopRank w => s.bumpLoopRank build w
  | .bumpWorkerRank w => some (s.bumpWorkerRank build w)
  | .enterFrame sf =>
      some { s with pedigreeUnsynched := Function.update s.pedigreeUnsynched sf false, set := none }
  | .write address value => some (s.store address { value := value, stamp := none })

/-- The workers have been made; nothing is known of the memory, nor of what is on the stacks. -/
def PedigreeState.Initial (build : PedigreeBuild α) (s : PedigreeState W α δ κ) : Prop :=
  (∀ w, s.ped w = { value := build.fresh, stamp := some 0 }) ∧ (∀ a, (s.memory.cell a).stamp = none) ∧
    (∀ d, (s.savedPed d).stamp = none) ∧ (∀ call, (s.savedNext call).2 = none) ∧ s.tlsCounter = 0 ∧
    s.set = none

/-- The machine of the pedigrees in one build. -/
def pedigreeMachine (build : PedigreeBuild α) :
    Machine (PedigreeState W α δ κ) (PedigreeLabel W α δ κ) where
  start := PedigreeState.Initial build
  step := pedigreeStep build

end PedigreeMachine

end CilkL
