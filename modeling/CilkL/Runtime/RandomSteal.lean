/-
Module: CilkL.Runtime.RandomSteal
Layer: Runtime
Purpose: `random_steal` by one worker, with `choose_deque`, `can_steal_from`, `dekker_protocol` and
  `deque_mug`, among the stores of all other workers. A step of the thief is one access to memory that
  others store into; between two steps the others store any values anywhere, except what a lock that the
  thief holds protects: the lock itself, and `exc` of the deque it works on. The rest of a steal that
  succeeds is any change. The thief's pool of fibers has no lock and is used by the thief alone. Fibers have
  no reference counts on this platform. A failed assertion has no result. The statistics, the random
  numbers, the choice of the victim and `work_stolen` are left out.
Imports: CilkL.Library.Machine, CilkL.Runtime.DequePoolArray, CilkL.Runtime.FiberPool
Trusted boundary: human-reviewed spec (translated from scheduler.c, deque.c, deque_pool.c and worker_mutex.c)
Main exports: StealMemory, Stores, StealEffect, StealState, stealStep, stealMachine
Open obligations: none
-/
import CilkL.Library.Machine
import CilkL.Runtime.DequePoolArray
import CilkL.Runtime.FiberPool

namespace CilkL

/-- What `random_steal` reads and stores, and what it must leave alone. `F` is what a stack frame holds
beside its worker, `G` what a full frame holds beside its join counter. -/
structure StealMemory (ω δ φ ψ β F G : Type) where
  /-- The pools, `self`, `worker` and `resumable` of the deques, and the owners of the workers' locks. -/
  deques : DequePoolsState ω δ
  /-- `w->l->active_deque`. -/
  activeDeque : ω → Option δ
  head : δ → Int
  tail : δ → Int
  protectedTail : δ → Int
  /-- `none` is `EXC_INFINITY`. -/
  exc : δ → Option Int
  frameFf : δ → Option ψ
  callStack : δ → Option φ
  fiber : δ → Option β
  team : δ → Option ω
  frameWorker : φ → Option ω
  frame : φ → F
  joinCounter : ψ → Int
  full : ψ → G
  activeWorkers : Int

/-- Stores of other workers: the values that are stored, where there is one. -/
structure Stores (ω δ φ ψ β F G : Type) where
  pools : ω → PoolKind → Option (DequePool δ)
  self : δ → Option Int
  worker : δ → Option (Option ω)
  resumable : δ → Option Bool
  lock : ω → Option (Option ω)
  history : δ → Option (PoolHistory ω)
  activeDeque : ω → Option (Option δ)
  head : δ → Option Int
  tail : δ → Option Int
  protectedTail : δ → Option Int
  exc : δ → Option (Option Int)
  frameFf : δ → Option (Option ψ)
  callStack : δ → Option (Option φ)
  fiber : δ → Option (Option β)
  team : δ → Option (Option ω)
  frameWorker : φ → Option (Option ω)
  frame : φ → Option F
  joinCounter : ψ → Option Int
  full : ψ → Option G
  activeWorkers : Option Int

/-- No store. -/
def Stores.empty {ω δ φ ψ β F G : Type} : Stores ω δ φ ψ β F G where
  pools _ _ := none
  self _ := none
  worker _ := none
  resumable _ := none
  lock _ := none
  history _ := none
  activeDeque _ := none
  head _ := none
  tail _ := none
  protectedTail _ := none
  exc _ := none
  frameFf _ := none
  callStack _ := none
  fiber _ := none
  team _ := none
  frameWorker _ := none
  frame _ := none
  joinCounter _ := none
  full _ := none
  activeWorkers := none

/-- A family of places after some of them were stored into. -/
def overlay {α γ : Type} (stores : α → Option γ) (f : α → γ) : α → γ := fun x => (stores x).getD (f x)

variable {ω δ φ ψ β F G : Type} [DecidableEq ω] [DecidableEq δ] [DecidableEq φ]

/-- Memory after the stores of other workers. -/
def StealMemory.store (m : StealMemory ω δ φ ψ β F G) (stores : Stores ω δ φ ψ β F G) :
    StealMemory ω δ φ ψ β F G where
  deques := {
    pools := fun w => overlay (stores.pools w) (m.deques.pools w)
    self := overlay stores.self m.deques.self
    worker := overlay stores.worker m.deques.worker
    resumable := overlay stores.resumable m.deques.resumable
    lock := overlay stores.lock m.deques.lock
    history := overlay stores.history m.deques.history }
  activeDeque := overlay stores.activeDeque m.activeDeque
  head := overlay stores.head m.head
  tail := overlay stores.tail m.tail
  protectedTail := overlay stores.protectedTail m.protectedTail
  exc := overlay stores.exc m.exc
  frameFf := overlay stores.frameFf m.frameFf
  callStack := overlay stores.callStack m.callStack
  fiber := overlay stores.fiber m.fiber
  team := overlay stores.team m.team
  frameWorker := overlay stores.frameWorker m.frameWorker
  frame := overlay stores.frame m.frame
  joinCounter := overlay stores.joinCounter m.joinCounter
  full := overlay stores.full m.full
  activeWorkers := stores.activeWorkers.getD m.activeWorkers

/-- What a failed attempt leaves behind: the stores of the others, and the two stores of a `deque_mug`. -/
inductive StealEffect (ω δ φ ψ β F G : Type) where
  | others (stores : Stores ω δ φ ψ β F G)
  /-- `deque_pool_remove`, where `moved` was in the last slot. -/
  | removed (owner : ω) (kind : PoolKind) (d moved : δ)
  /-- `d->call_stack->worker = w`. -/
  | claimed (sf : φ) (w : ω)

/-- Memory after an effect. -/
def StealMemory.effect (m : StealMemory ω δ φ ψ β F G) :
    StealEffect ω δ φ ψ β F G → StealMemory ω δ φ ψ β F G
  | .others stores => m.store stores
  | .removed owner kind d moved => { m with deques := m.deques.storeRemoved owner kind d moved }
  | .claimed sf w => { m with frameWorker := setAt m.frameWorker sf (some w) }

/-- Where the thief is in `random_steal`; `v` is the victim and `d` the chosen deque. -/
inductive StealPc (ω δ : Type) where
  | idle
  | picking
  | locking (v : ω)
  | choosing (v : ω)
  | chosen (v : ω) (d : δ)
  /-- `can_steal_from`, in `dekker_protocol` or before it. -/
  | testTail (v : ω) (d : δ) (dekker : Bool)
  | testProtected (v : ω) (d : δ) (dekker : Bool)
  | failedTest (v : ω) (d : δ)
  | mugged (v : ω) (d : δ)
  | allocating (v : ω) (d : δ)
  | allocated (v : ω) (d : δ)
  | incrementing (v : ω) (d : δ)
  | matching (v : ω) (d : δ)
  | decrementing (v : ω) (d : δ)
  /-- At `done`. -/
  | done (v : ω)
  | unlocked
  /-- `random_steal` returned without work. -/
  | returned
  /-- The steal, or the jump to a suspended fiber, goes through. -/
  | stole
deriving DecidableEq, Repr

/-- One thief among other workers. -/
structure StealState (ω δ φ ψ β F G : Type) where
  memory : StealMemory ω δ φ ψ β F G
  pc : StealPc ω δ
  /-- The thief's pool of fibers. -/
  pool : FiberPool β
  /-- `fiber` in `random_steal`. -/
  fiber : Option β
  /-- Memory at the last call. No code reads this and what follows. -/
  before : StealMemory ω δ φ ψ β F G
  /-- The effects since then, oldest first. -/
  effects : List (StealEffect ω δ φ ψ β F G)
  /-- How often the thief took and released a victim's lock since then. -/
  taken : Nat
  released : Nat

/-- The steps. -/
inductive StealLabel (ω δ φ ψ β F G : Type) where
  | others (stores : Stores ω δ φ ψ β F G)
  /-- `random_steal` is called, with stealing disabled or not. -/
  | call (stealingDisabled : Bool)
  /-- The victim; none if the log under replay has no steal next. -/
  | pickVictim (v : Option ω)
  | tryLock
  | chooseDeque (rand : Nat)
  | testResumable
  | testTail
  | testProtected
  /-- `deque_mug`, or none for the active deque. -/
  | mug
  | claim
  /-- `cilk_fiber_allocate`; what the heap, and the global pool after it, return if the pool is empty. -/
  | allocate (heap parent : Option β)
  | testTeam
  | incrementE
  | decrementE
  /-- `replay_match_victim_pedigree`. -/
  | matchPedigree (isMatch : Bool)
  | unlock
  | giveFiberBack
  /-- The thief goes on with what it stole, and uses its pool. -/
  | goOn (memory : StealMemory ω δ φ ψ β F G) (pool : FiberPool β)

/-- `increment_E` and `decrement_E`. -/
def addE (exc : Option Int) (n : Int) : Option Int := exc.map (· + n)

namespace StealPc

/-- The victim whose lock the thief has. -/
def holds : StealPc ω δ → Option ω
  | .choosing v | .chosen v _ | .testTail v _ _ | .testProtected v _ _ | .failedTest v _ | .mugged v _
  | .allocating v _ | .allocated v _ | .incrementing v _ | .matching v _ | .decrementing v _ => some v
  | _ => none

/-- The deque that the thief works on. -/
def deque : StealPc ω δ → Option δ
  | .chosen _ d | .testTail _ d _ | .testProtected _ d _ | .failedTest _ d | .mugged _ d | .allocating _ d
  | .allocated _ d | .incrementing _ d | .matching _ d | .decrementing _ d => some d
  | _ => none

/-- The thief is outside of `random_steal`. -/
def outside : StealPc ω δ → Bool
  | .idle | .returned | .stole => true
  | _ => false

end StealPc

variable [Fintype ω] [DecidableEq β]

/-- What the locks leave to the others: no lock is taken in the thief's name; the lock of the victim stays
with the thief and protects the victim's active deque, `exc` of the deque that the thief works on, and
`resumable` if that is suspended. -/
def Stores.Allowed (stores : Stores ω δ φ ψ β F G) (w : ω) (s : StealState ω δ φ ψ β F G) : Prop :=
  (∀ v, stores.lock v ≠ some (some w)) ∧
    (∀ v, s.memory.deques.lock v = some w → stores.lock v = none ∧ stores.activeDeque v = none) ∧
    ∀ d ∈ s.pc.deque, stores.exc d = none ∧
      ((∀ v ∈ s.pc.holds, s.memory.activeDeque v ≠ some d) → stores.resumable d = none)

instance (stores : Stores ω δ φ ψ β F G) (w : ω)
    (s : StealState ω δ φ ψ β F G) : Decidable (stores.Allowed w s) :=
  inferInstanceAs (Decidable (_ ∧ _ ∧ _))

/-- One step of the thief `w`, or of the others. -/
def stealStep (w : ω) (isUser : Bool) (s : StealState ω δ φ ψ β F G) :
    StealLabel ω δ φ ψ β F G → Option (StealState ω δ φ ψ β F G)
  | .others stores =>
      if stores.Allowed w s then
        some { s with memory := s.memory.store stores, effects := s.effects ++ [.others stores] }
      else none
  | .call stealingDisabled =>
      if s.pc = .idle ∨ s.pc = .returned then
        some { s with
          pc := if stealingDisabled then .returned else .picking
          fiber := none, before := s.memory, effects := [], taken := 0, released := 0 }
      else none
  | .pickVictim v =>
      match s.pc, v with
      | .picking, some v => some { s with pc := .locking v }
      | .picking, none => some { s with pc := .returned }
      | _, _ => none
  | .tryLock =>
      match s.pc with
      | .locking v =>
          if s.memory.deques.lock v = none then
            let deques := { s.memory.deques with lock := setAt s.memory.deques.lock v (some w) }
            some { s with
              memory := { s.memory with deques := deques }, taken := s.taken + 1, pc := .choosing v }
          else some { s with pc := .done v }
      | _ => none
  | .chooseDeque rand =>
      match s.pc with
      | .choosing v =>
          match s.memory.deques.chooseDeque w v rand, s.memory.activeDeque v with
          | some (.pooled d), _ | some .active, some d => some { s with pc := .chosen v d }
          | some .active, none => some { s with pc := .done v }
          | none, _ => none
      | _ => none
  | .testResumable =>
      match s.pc with
      | .chosen v d =>
          if s.memory.activeDeque v ≠ some d ∧ s.memory.deques.resumable d then
            some { s with pc := .stole }
          else if s.memory.activeDeque w = none then some { s with pc := .done v }
          else some { s with pc := .testTail v d false }
      | _ => none
  | .testTail =>
      match s.pc with
      | .testTail v d dekker =>
          if s.memory.head d < s.memory.tail d then some { s with pc := .testProtected v d dekker }
          else some { s with pc := if dekker then .decrementing v d else .failedTest v d }
      | _ => none
  | .testProtected =>
      match s.pc with
      | .testProtected v d dekker =>
          if s.memory.head d < s.memory.protectedTail d then
            some { s with pc := if dekker then .matching v d else .allocating v d }
          else some { s with pc := if dekker then .decrementing v d else .failedTest v d }
      | _ => none
  | .mug =>
      match s.pc with
      | .failedTest v d =>
          if s.memory.activeDeque v = some d then some { s with pc := .done v }
          else
            match s.memory.deques.worker d with
            | some owner =>
                let kind := PoolKind.of (s.memory.deques.resumable d)
                let p := s.memory.deques.pools owner kind
                if s.memory.deques.lock owner = some w ∧ (s.memory.fiber d).isSome ∧ p.validate then
                  match s.memory.deques.dequePoolRemove owner kind d, p.array[p.size - 1]? with
                  | some deques, some (.item moved) =>
                      some { s with
                        memory := { s.memory with deques := deques }
                        effects := s.effects ++ [.removed owner kind d moved], pc := .mugged v d }
                  | _, _ => none
                else none
            | none => none
      | _ => none
  | .claim =>
      match s.pc with
      | .mugged v d =>
          match s.memory.callStack d with
          | some sf =>
              -- `CILK_ASSERT(!d->resumable)`
              if s.memory.deques.resumable d then none
              else
                some { s with
                  memory := { s.memory with frameWorker := setAt s.memory.frameWorker sf (some w) }
                  effects := s.effects ++ [.claimed sf w], pc := .done v }
          | none => none
      | _ => none
  | .allocate heap parent =>
      match s.pc with
      | .allocating v d =>
          match s.pool.fibers with
          | fiber :: fibers =>
              some { s with
                pool := { s.pool with fibers := fibers }, fiber := some fiber, pc := .allocated v d }
          | [] =>
              match heap, parent with
              | some fiber, _ =>
                  some { s with pool := s.pool.incrementTotal, fiber := some fiber, pc := .allocated v d }
              | none, some fiber =>
                  some { s with
                    pool := s.pool.incrementTotal.decrementTotal 1, fiber := some fiber, pc := .allocated v d }
              | none, none =>
                  some { s with pool := s.pool.incrementTotal.decrementTotal 1, pc := .done v }
      | _ => none
  | .testTeam =>
      match s.pc with
      | .allocated v d =>
          if isUser ∧ s.memory.team d ≠ some w then some { s with pc := .done v }
          else if s.memory.frameFf d = none then some { s with pc := .done v }
          else some { s with pc := .incrementing v d }
      | _ => none
  | .incrementE =>
      match s.pc with
      | .incrementing v d =>
          some { s with
            memory := { s.memory with exc := setAt s.memory.exc d (addE (s.memory.exc d) 1) }
            pc := .testTail v d true }
      | _ => none
  | .decrementE =>
      match s.pc with
      | .decrementing v d =>
          some { s with
            memory := { s.memory with exc := setAt s.memory.exc d (addE (s.memory.exc d) (-1)) }
            pc := .done v }
      | _ => none
  | .matchPedigree isMatch =>
      match s.pc with
      | .matching v d => some { s with pc := if isMatch then .stole else .decrementing v d }
      | _ => none
  | .unlock =>
      match s.pc with
      | .done v =>
          if s.memory.deques.lock v = some w then
            let deques := { s.memory.deques with lock := setAt s.memory.deques.lock v none }
            some { s with
              memory := { s.memory with deques := deques }, released := s.released + 1, pc := .unlocked }
          else some { s with pc := .unlocked }
      | _ => none
  | .giveFiberBack =>
      match s.pc with
      | .unlocked =>
          match s.fiber with
          | some fiber =>
              (s.pool.deallocateSelf fiber).map fun pool => { s with pool := pool, pc := .returned }
          | none => some { s with pc := .returned }
      | _ => none
  | .goOn memory pool =>
      if s.pc.outside ∧ (∀ v, memory.deques.lock v ≠ some w) ∧ pool.fibers.Nodup ∧
          pool.size ≤ pool.maxSize.toNat then
        some { s with memory := memory, pool := pool, pc := .idle }
      else none

/-- The thief has no lock, and its pool is in order. -/
def StealState.Initial (w : ω) (s : StealState ω δ φ ψ β F G) : Prop :=
  s.pc = .idle ∧ (∀ v, s.memory.deques.lock v ≠ some w) ∧ s.pool.fibers.Nodup ∧
    s.pool.size ≤ s.pool.maxSize.toNat

variable (δ φ ψ β F G) in
def stealMachine (w : ω) (isUser : Bool) :
    Machine (StealState ω δ φ ψ β F G) (StealLabel ω δ φ ψ β F G) where
  start := StealState.Initial w
  step := stealStep w isUser

end CilkL
