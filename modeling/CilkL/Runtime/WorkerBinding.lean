/-
Module: CilkL.Runtime.WorkerBinding
Layer: Runtime
Purpose: User threads that bind to a worker (`__cilkrts_bind_thread`) and unbind from it when their outermost
  Cilk function returns, in any order and each under the global mutex: the types that `init_workers` gives to
  the slots of the table, the scan of `find_free_worker` with the workers it makes when it finds none, and the
  count `Q`. An overflow worker that is destroyed is not made again at its address. `calc_max_user_workers`
  returns 1, so `total_workers` is `P`. An allocation that fails ends the program. What the thread computes
  between the two calls leaves its frame, its deque and its worker as `__cilkrts_bind_thread` made them.
Imports: CilkL.Library.Machine, CilkL.Runtime.Future, CilkL.Runtime.Shutdown
Trusted boundary: human-reviewed spec (translated from cilk-abi.c, scheduler.c, pedigrees.c and os-unix.c)
Main exports: WorkerName, BindingWorker, BindingConfig, BindingState, findFreeWorker, bindThread,
  returnFromInitial, unbindThread, bindingMachine
Open obligations: none
-/
import CilkL.Library.Machine
import CilkL.Runtime.Future
import CilkL.Runtime.Shutdown

namespace CilkL

/-- A worker of the table, or one made when the table had no free one. -/
inductive WorkerName where
  | slot (i : Nat)
  | overflow (n : Nat)
deriving DecidableEq, Repr

/-- The full frame that a thread enters Cilk with; `fiber_self` is the fiber made from the thread. -/
structure InitialFrame (τ : Type) where
  joinCounter : Int
  fiberSelf : τ
deriving DecidableEq, Repr

/-- What binding reads and writes of a worker and of its active deque. The pointers into the deque are
counted from `ltq`. -/
structure BindingWorker (τ : Type) where
  self : Int
  type : WorkerType
  /-- `active_deque->team`. -/
  team : Option WorkerName
  frameFf : Option (InitialFrame τ)
  head : Nat
  tail : Nat
  protectedTail : Nat
  /-- Whether there is one. -/
  schedulingFiber : Bool
  signalNode : Bool
  stats : Bool
  /-- The thread whose leaf of the pedigree the worker uses. -/
  originalPedigreeLeaf : Option τ
deriving DecidableEq, Repr

/-- The build, and what the runtime was started with. -/
structure BindingConfig where
  P : Nat
  positive : 1 ≤ P
  ioMode : RuntimeIoMode
  /-- The length of a deque. -/
  ltqsize : Nat
  /-- `CILK_PROFILE`. -/
  profile : Bool
deriving DecidableEq, Repr

variable {τ : Type}

namespace BindingWorker

/-- `make_worker`, which makes statistics in all builds. -/
def make (config : BindingConfig) (self : Int) : BindingWorker τ where
  self := self
  type := .free
  team := none
  frameFf := none
  head := 0
  tail := 0
  protectedTail := config.ltqsize
  schedulingFiber := false
  signalNode := false
  stats := true
  originalPedigreeLeaf := none

/-- `make_worker_system`. -/
def makeSystem (worker : BindingWorker τ) : BindingWorker τ :=
  { worker with type := .system, signalNode := true }

/-- `make_worker_io`. -/
def makeIo (worker : BindingWorker τ) : BindingWorker τ := { worker with type := .io }

/-- `__cilkrts_disallow_stealing` from the whole queue. -/
def disallowStealing (worker : BindingWorker τ) : BindingWorker τ :=
  if 0 < worker.protectedTail then { worker with protectedTail := 0 } else worker

end BindingWorker

/-- The slot `i` of the table after `init_workers`. -/
def initSlot (config : BindingConfig) (i : Nat) : BindingWorker τ :=
  let worker := BindingWorker.make config i
  if 1 ≤ i ∧ i < config.P then worker.makeSystem
  else if config.P ≤ i ∧ config.ioMode ≠ .normal then worker.makeIo
  else worker

/-- The threads that the runtime starts have these workers. -/
def HeldBySystem (config : BindingConfig) (w : WorkerName) : Prop :=
  ∃ i ∈ startedThreads config.P config.ioMode, w = .slot i

/-- The workers, and what the user threads have. -/
structure BindingState (τ : Type) where
  workers : WorkerName → Option (BindingWorker τ)
  /-- How many workers were made besides those of the table. -/
  made : Nat
  /-- The worker of a thread. -/
  tls : τ → Option WorkerName
  /-- The rank of the root of the pedigrees of a thread that has one. -/
  pedigreeRoot : τ → Option UInt64
  /-- `__cilkrts_global_pedigree_tls_counter`. -/
  pedigreeCounter : UInt32
  Q : Int
  /-- An assertion failed. -/
  failed : Bool

/-- The entries of `g->workers`, of which there are twice `total_workers`. -/
def BindingConfig.table (config : BindingConfig) : List Nat := List.range (2 * config.P)

/-- The state after `__cilkrts_init_internal`. -/
def BindingState.start (config : BindingConfig) : BindingState τ where
  workers
    | .slot i => if i ∈ config.table then some (initSlot config i) else none
    | .overflow _ => none
  made := 0
  tls _ := none
  pedigreeRoot _ := none
  pedigreeCounter := 0
  Q := 0
  failed := false

/-- `CILK_ASSERT`. -/
def cilkAssert (holds : Prop) [Decidable holds] : Option Unit := if holds then some () else none

/-! ### `__cilkrts_bind_thread` -/

namespace BindingState

/-- A worker becomes another. -/
abbrev setWorker (s : BindingState τ) (w : WorkerName) (worker : BindingWorker τ) : BindingState τ :=
  { s with workers := setAt s.workers w (some worker) }

/-- The loop of `find_free_worker` over the slots that are left to look at. -/
def scanWorkers (s : BindingState τ) : List Nat → Option (Option (Nat × BindingWorker τ))
  | [] => some none
  | i :: rest => do
      let worker ← s.workers (.slot i)
      cilkAssert (worker.type ≠ .system)
      if worker.type = .free then some (some (i, worker)) else scanWorkers s rest

/-- A worker for a user thread. -/
def makeUser (s : BindingState τ) (w : WorkerName) (worker : BindingWorker τ) : BindingState τ :=
  s.setWorker w { worker with type := .user, team := some w }

/-- `find_free_worker`. -/
def findFreeWorker (config : BindingConfig) (s : BindingState τ) : Option (WorkerName × BindingState τ) := do
  match ← s.scanWorkers (List.range config.P) with
  | some (i, worker) => some (.slot i, s.makeUser (.slot i) worker)
  | none =>
      let w := WorkerName.overflow s.made
      some (w, { s with made := s.made + 1 }.makeUser w (BindingWorker.make config (-1)))

variable [DecidableEq τ]

/-- The rank of the next root: the counter is an `int`, the rank has 64 bits. -/
def nextRoot (s : BindingState τ) : UInt64 := (s.pedigreeCounter + 1).toInt32.toInt64.toUInt64

/-- `__cilkrts_get_tls_pedigree_leaf`, which makes the two nodes of a thread that has none. -/
def getTlsPedigreeLeaf (s : BindingState τ) (t : τ) : Option (BindingState τ) :=
  if s.pedigreeRoot t = none then do
    cilkAssert (s.nextRoot ≠ -1)
    some { s with
      pedigreeCounter := s.pedigreeCounter + 1
      pedigreeRoot := setAt s.pedigreeRoot t (some s.nextRoot) }
  else some s

/-- `load_pedigree_leaf_into_user_worker`. -/
def loadPedigreeLeaf (s : BindingState τ) (t : τ) (w : WorkerName) : Option (BindingState τ) := do
  let worker ← s.workers w
  cilkAssert (worker.type = .user)
  let s ← s.getTlsPedigreeLeaf t
  cilkAssert (worker.originalPedigreeLeaf = none)
  some (s.setWorker w { worker with originalPedigreeLeaf := some t })

/-- `wake_runtime` and `sleep_runtime` send a message to the root node. -/
def signalRoot (config : BindingConfig) (s : BindingState τ) : Option Unit :=
  if 1 < config.P then do
    let root ← s.workers (.slot 1)
    cilkAssert (root.signalNode = true)
  else some ()

/-- `__cilkrts_enter_cilk`. -/
def enterCilk (config : BindingConfig) (s : BindingState τ) : Option (BindingState τ) := do
  if s.Q = 0 then s.signalRoot config
  some { s with Q := s.Q + 1 }

/-- `__cilkrts_leave_cilk`. -/
def leaveCilk (config : BindingConfig) (s : BindingState τ) : Option (BindingState τ) := do
  if s.Q - 1 = 0 then s.signalRoot config
  some { s with Q := s.Q - 1 }

/-- The scheduling fiber of a worker that is bound; an ad-hoc worker has none, and is not stolen from. -/
def prepareFiber (worker : BindingWorker τ) : BindingWorker τ :=
  let worker := if worker.schedulingFiber = false ∧ 0 ≤ worker.self then { worker with schedulingFiber := true }
    else worker
  if worker.schedulingFiber = false then worker.disallowStealing else worker

/-- `__cilkrts_bind_thread`. -/
def bindThread (config : BindingConfig) (s : BindingState τ) (t : τ) : Option (BindingState τ) := do
  let (w, s) ← s.findFreeWorker config
  let s := { s with tls := setAt s.tls t (some w) }
  let worker ← s.workers w
  let s := s.setWorker w { worker with frameFf := some ⟨1, t⟩ }
  let s ← s.loadPedigreeLeaf t w
  let worker ← s.workers w
  cilkAssert (worker.head = 0)
  cilkAssert (worker.tail = 0)
  cilkAssert (worker.protectedTail = config.ltqsize)
  let s := s.setWorker w (prepareFiber worker)
  if worker.self ≠ -1 then s.enterCilk config else some s

/-! ### The way back -/

/-- `save_pedigree_leaf_from_user_worker`. -/
def savePedigreeLeaf (s : BindingState τ) (w : WorkerName) : Option (BindingState τ) := do
  let worker ← s.workers w
  cilkAssert (worker.type = .user)
  cilkAssert (worker.originalPedigreeLeaf ≠ none)
  some (s.setWorker w { worker with originalPedigreeLeaf := none })

/-- `__cilkrts_c_return_from_initial`, before the thread is unbound. -/
def returnFromInitial (s : BindingState τ) (w : WorkerName) : Option (BindingState τ) := do
  let worker ← s.workers w
  cilkAssert (worker.type = .user)
  let ff ← worker.frameFf
  cilkAssert (ff.joinCounter = 1)
  (s.setWorker w { worker with frameFf := none }).savePedigreeLeaf w

/-- The assertions of `destroy_worker`. -/
def destroyWorkerAsserts (config : BindingConfig) (worker : BindingWorker τ) : Option Unit := do
  if worker.schedulingFiber = true then cilkAssert (worker.type = .free)
  if config.profile = false then cilkAssert (worker.stats = false)
  if worker.signalNode = true then cilkAssert (worker.type = .system)

/-- `__cilkrts_unbind_thread`. -/
def unbindThread (config : BindingConfig) (s : BindingState τ) (t : τ) (w : WorkerName) :
    Option (BindingState τ) := do
  let worker ← s.workers w
  let s := { s with tls := setAt s.tls t none }
  if worker.self = -1 then
    destroyWorkerAsserts config worker
    some { s with workers := setAt s.workers w none }
  else (s.setWorker w { worker with type := .free }).leaveCilk config

end BindingState

/-! ### All threads -/

/-- What a thread does. -/
inductive BindingLabel (τ : Type) where
  | bind (t : τ)
  | unbind (t : τ)
deriving DecidableEq, Repr

variable [DecidableEq τ]

/-- The result of a call; a failed assertion ends the program. -/
def bindingOutcome (config : BindingConfig) (s : BindingState τ) : BindingLabel τ → Option (BindingState τ)
  | .bind t => s.bindThread config t
  | .unbind t => do
      let w ← s.tls t
      let s ← s.returnFromInitial w
      s.unbindThread config t w

/-- A thread binds when it has no worker, and unbinds when it has one. -/
def BindingEnabled (s : BindingState τ) : BindingLabel τ → Prop
  | .bind t => s.failed = false ∧ s.tls t = none
  | .unbind t => s.failed = false ∧ s.tls t ≠ none

instance (s : BindingState τ) : (a : BindingLabel τ) → Decidable (BindingEnabled s a)
  | .bind t => inferInstanceAs (Decidable (s.failed = false ∧ s.tls t = none))
  | .unbind t => inferInstanceAs (Decidable (s.failed = false ∧ s.tls t ≠ none))

/-- One call. -/
def bindingStep (config : BindingConfig) (s : BindingState τ) (a : BindingLabel τ) : Option (BindingState τ) :=
  if BindingEnabled s a then some ((bindingOutcome config s a).getD { s with failed := true }) else none

/-- The runtime with its user threads. -/
def bindingMachine (τ : Type) [DecidableEq τ] (config : BindingConfig) :
    Machine (BindingState τ) (BindingLabel τ) where
  start s := s = .start config
  step := bindingStep config

end CilkL
