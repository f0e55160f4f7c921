/-
Module: CilkL.Proofs.WorkerBinding
Layer: Proofs
Purpose: What user threads get from binding and unbinding, in any order. As long as each thread that binds finds
  slot 0 free, or the table has no other slot than that and a busy I/O worker's, all threads have workers of their
  own and `Q` counts those of the table. The scan fails its assertion at a system worker, leaves out the free
  slots after the first `P`, and an overflow worker cannot be destroyed in a build without profiling.
Imports: CilkL.Runtime.WorkerBinding, Mathlib.Data.Set.Card
Trusted boundary: none
Main exports: BindingSafe, CallMeets, BindingAllowed, BindingInvariant, worker_binding
Open obligations: none
-/
import CilkL.Runtime.WorkerBinding
import Mathlib.Data.Set.Card

namespace CilkL

variable {τ : Type} {config : BindingConfig} {s s' : BindingState τ} {t : τ} {w : WorkerName}
  {worker : BindingWorker τ}

/-! ### What is to hold -/

/-- Each bound thread has a worker of its own, of the type for users and the team of its deque; `Q` counts the
bound threads that have workers of the table; no assertion failed. -/
structure BindingSafe (config : BindingConfig) (s : BindingState τ) : Prop where
  own : ∀ t t' w, s.tls t = some w → s.tls t' = some w → t = t'
  notSystem : ∀ t w, s.tls t = some w → ¬HeldBySystem config w
  user : ∀ t w, s.tls t = some w → ∃ worker, s.workers w = some worker ∧ worker.type = .user ∧
    worker.team = some w
  counted : s.Q = {t | ∃ i, s.tls t = some (.slot i)}.ncard
  sound : s.failed = false

/-- Slot `i` of the table has a free worker. -/
def FreeSlot (config : BindingConfig) (s : BindingState τ) (i : Nat) : Prop :=
  i ∈ config.table ∧ ∃ worker, s.workers (.slot i) = some worker ∧ worker.type = .free

/-- The thread gets a free worker of the table if there is one, and otherwise a new one. -/
def BindMeets (config : BindingConfig) (s : BindingState τ) (t : τ) (s' : BindingState τ) : Prop :=
  s'.failed = false ∧ ∃ w worker, s'.tls t = some w ∧ s'.workers w = some worker ∧
    ((∃ i, FreeSlot config s i) → ∃ i, FreeSlot config s i ∧ w = .slot i) ∧
    ((∀ i, ¬FreeSlot config s i) → (∃ n, w = .overflow n) ∧ s.workers w = none ∧ worker.self = -1)

/-- The worker of the thread is free again if it is in the table, and is no more if it is not. -/
def UnbindMeets (s : BindingState τ) (t : τ) (s' : BindingState τ) : Prop :=
  s'.failed = false ∧ s'.tls t = none ∧
    (∀ i, s.tls t = some (.slot i) → ∃ worker, s'.workers (.slot i) = some worker ∧ worker.type = .free) ∧
    ∀ n, s.tls t = some (.overflow n) → s'.workers (.overflow n) = none

/-- What a call is to do. -/
def CallMeets (config : BindingConfig) (s : BindingState τ) : BindingLabel τ → BindingState τ → Prop
  | .bind t => BindMeets config s t
  | .unbind t => UnbindMeets s t

/-- Slot 0 is free when a thread binds, or it is the only slot that is not for I/O; the thread has a pedigree, or
the next rank of a root is valid. Only a build with profiling can destroy an overflow worker. -/
def BindingAllowed (config : BindingConfig) (s : BindingState τ) : BindingLabel τ → Prop
  | .bind t => (FreeSlot config s 0 ∨ config.P = 1 ∧ config.ioMode ≠ .normal) ∧
      (s.pedigreeRoot t = none → s.nextRoot ≠ -1)
  | .unbind t => (∃ i, s.tls t = some (.slot i)) ∨ config.profile = true

/-! ### The invariant -/

/-- The worker is that of a thread. -/
structure Serves (w : WorkerName) (t : τ) (worker : BindingWorker τ) : Prop where
  type : worker.type = .user
  team : worker.team = some w
  frame : worker.frameFf = some ⟨1, t⟩
  leaf : worker.originalPedigreeLeaf = some t

/-- Nobody has stolen from the worker, and nobody is kept from it. -/
structure Untouched (config : BindingConfig) (worker : BindingWorker τ) : Prop where
  head : worker.head = 0
  tail : worker.tail = 0
  protectedTail : worker.protectedTail = config.ltqsize
  signalNode : worker.signalNode = false

/-- Slot 0 is the only one of the table that a thread has ever. -/
structure BindingInvariant (config : BindingConfig) (s : BindingState τ) : Prop where
  sound : s.failed = false
  rest : ∀ i ∈ config.table, i ≠ 0 → s.workers (.slot i) = some (initSlot config i)
  slots : ∀ t i, s.tls t = some (.slot i) → i = 0
  zero : ∃ worker, s.workers (.slot 0) = some worker ∧ worker.self = 0 ∧ Untouched config worker ∧
    ((worker.type = .free ∧ worker.originalPedigreeLeaf = none ∧ (∀ t, s.tls t ≠ some (.slot 0)) ∧ s.Q = 0) ∨
      ∃ t, Serves (.slot 0) t worker ∧ (∀ t', s.tls t' = some (.slot 0) ↔ t' = t) ∧ s.Q = 1)
  overflow : ∀ t n, s.tls t = some (.overflow n) → n < s.made ∧ ∃ worker,
    s.workers (.overflow n) = some worker ∧ worker.self = -1 ∧ worker.schedulingFiber = false ∧
      worker.signalNode = false ∧ worker.stats = true ∧ Serves (.overflow n) t worker
  own : ∀ t t' n, s.tls t = some (.overflow n) → s.tls t' = some (.overflow n) → t = t'
  fresh : ∀ n, s.made ≤ n → s.workers (.overflow n) = none

theorem mem_table (i : Nat) : i ∈ config.table ↔ i < 2 * config.P := by
  rw [BindingConfig.table, List.mem_range]

theorem zero_mem_table : 0 ∈ config.table := (mem_table 0).mpr (by have := config.positive; omega)

theorem not_heldBySystem_zero : ¬HeldBySystem config (.slot 0) := by
  rintro ⟨i, started, same⟩
  obtain rfl := WorkerName.slot.inj same
  have positive := config.positive
  rw [startedThreads, List.mem_append, List.mem_range'_1] at started
  rcases started with system | io
  · exact absurd system.1 (by decide)
  · split at io
    case isTrue => exact absurd (List.mem_range'_1.mp io).1 (by omega)
    case isFalse => cases io

theorem not_heldBySystem_overflow (n : Nat) : ¬HeldBySystem config (.overflow n) := by
  rintro ⟨i, -, same⟩
  cases same

theorem bindingInvariant_start : BindingInvariant config (.start config : BindingState τ) where
  sound := rfl
  rest i inTable other := if_pos inTable
  slots := nofun
  zero := by
    have notSystem : ¬(1 ≤ 0 ∧ 0 < config.P) := by omega
    have notIo : ¬(config.P ≤ 0 ∧ config.ioMode ≠ .normal) := fun io => absurd config.positive (by omega)
    refine ⟨BindingWorker.make config 0, ?_, rfl, ⟨rfl, rfl, rfl, rfl⟩, .inl ⟨rfl, rfl, nofun, rfl⟩⟩
    refine (if_pos zero_mem_table).trans ?_
    rw [initSlot, if_neg notSystem, if_neg notIo]
    rfl
  overflow := nofun
  own := nofun
  fresh _ _ := rfl

/-- The invariant is more than what is to hold. -/
theorem BindingInvariant.safe (inv : BindingInvariant config s) : BindingSafe config s where
  own t t' w held held' := by
    cases w with
    | slot i =>
        obtain rfl := inv.slots t i held
        obtain ⟨_, _, _, _, ⟨_, _, unheld, _⟩ | ⟨holder, _, holds, _⟩⟩ := inv.zero
        · exact absurd held (unheld t)
        · exact ((holds t).mp held).trans ((holds t').mp held').symm
    | overflow n => exact inv.own t t' n held held'
  notSystem t w held := by
    cases w with
    | slot i =>
        obtain rfl := inv.slots t i held
        exact not_heldBySystem_zero
    | overflow n => exact not_heldBySystem_overflow n
  user t w held := by
    cases w with
    | slot i =>
        obtain rfl := inv.slots t i held
        obtain ⟨worker, here, _, _, ⟨_, _, unheld, _⟩ | ⟨_, serves, _, _⟩⟩ := inv.zero
        · exact absurd held (unheld t)
        · exact ⟨worker, here, serves.type, serves.team⟩
    | overflow n =>
        obtain ⟨_, worker, here, _, _, _, _, serves⟩ := inv.overflow t n held
        exact ⟨worker, here, serves.type, serves.team⟩
  counted := by
    obtain ⟨_, _, _, _, ⟨_, _, unheld, none⟩ | ⟨holder, _, holds, one⟩⟩ := inv.zero
    · have empty : {t | ∃ i, s.tls t = some (.slot i)} = ∅ := by
        refine Set.eq_empty_of_forall_notMem fun t ⟨i, held⟩ => ?_
        exact unheld t (inv.slots t i held ▸ held)
      rw [empty, none, Set.ncard_empty]
      rfl
    · have single : {t | ∃ i, s.tls t = some (.slot i)} = {holder} := by
        ext t
        refine ⟨fun ⟨i, held⟩ => (holds t).mp (inv.slots t i held ▸ held), fun same => ⟨0, (holds t).mpr same⟩⟩
      rw [single, one, Set.ncard_singleton]
      rfl
  sound := inv.sound

theorem overflow_ne_slot (n i : Nat) : WorkerName.overflow n ≠ .slot i := nofun

/-! ### The scan -/

theorem makeUser_here : (s.makeUser w worker).workers w = some { worker with type := .user, team := some w } :=
  setAt_self _ _ _

@[simp] theorem cilkAssert_of {p : Prop} [Decidable p] (holds : p) : cilkAssert p = some () := if_pos holds

@[simp] theorem cilkAssert_not {p : Prop} [Decidable p] (fails : ¬p) : cilkAssert p = none := if_neg fails

/-- The scan takes slot 0 if it is free. -/
theorem findFreeWorker_zero (here : s.workers (.slot 0) = some worker) (free : worker.type = .free) :
    s.findFreeWorker config = some (.slot 0, s.makeUser (.slot 0) worker) := by
  obtain ⟨p, more⟩ := Nat.exists_eq_add_of_le' config.positive
  simp [BindingState.findFreeWorker, more, List.range_succ_eq_map, BindingState.scanWorkers, here, free]

/-- With one worker and that one taken, a worker is made. -/
theorem findFreeWorker_overflow (one : config.P = 1) (here : s.workers (.slot 0) = some worker)
    (taken : worker.type = .user) :
    s.findFreeWorker config = some (.overflow s.made,
      { s with made := s.made + 1 }.makeUser (.overflow s.made) (BindingWorker.make config (-1))) := by
  simp [BindingState.findFreeWorker, one, BindingState.scanWorkers, here, taken]

/-- Where slot 0 is taken the scan comes to a system worker. -/
theorem findFreeWorker_system (inv : BindingInvariant config s) (more : config.P ≠ 1)
    (here : s.workers (.slot 0) = some worker) (taken : worker.type = .user) : s.findFreeWorker config = none := by
  have positive := config.positive
  obtain ⟨p, size⟩ := Nat.exists_eq_add_of_le' (show 2 ≤ config.P by omega)
  have second : s.workers (.slot 1) = some (BindingWorker.make config 1).makeSystem := by
    rw [inv.rest 1 ((mem_table 1).mpr (by omega)) (by decide), initSlot, if_pos ⟨le_rfl, by omega⟩]
    rfl
  simp [BindingState.findFreeWorker, size, List.range_succ_eq_map, BindingState.scanWorkers, here, taken, second,
    BindingWorker.makeSystem]

/-! ### A thread binds -/

variable [DecidableEq τ]

/-- The thread has a pedigree afterwards. -/
theorem getTlsPedigreeLeaf_eq (valid : s.pedigreeRoot t = none → s.nextRoot ≠ -1) :
    ∃ root counter, s.getTlsPedigreeLeaf t = some { s with pedigreeRoot := root, pedigreeCounter := counter } := by
  by_cases new : s.pedigreeRoot t = none
  · exact ⟨setAt s.pedigreeRoot t (some s.nextRoot), s.pedigreeCounter + 1,
      by simp [BindingState.getTlsPedigreeLeaf, new, valid new]⟩
  · exact ⟨s.pedigreeRoot, s.pedigreeCounter, by simp [BindingState.getTlsPedigreeLeaf, new]⟩

theorem getTlsPedigreeLeaf_none (new : s.pedigreeRoot t = none) (invalid : s.nextRoot = -1) :
    s.getTlsPedigreeLeaf t = none := by
  simp [BindingState.getTlsPedigreeLeaf, new, invalid]

/-- The worker of a thread that is bound, after `find_free_worker` chose it. -/
def boundWorker (worker : BindingWorker τ) (t : τ) : BindingWorker τ :=
  BindingState.prepareFiber { worker with frameFf := some ⟨1, t⟩, originalPedigreeLeaf := some t }

/-- The root node can be sent a message. -/
def RootSignals (config : BindingConfig) (s : BindingState τ) : Prop :=
  1 < config.P → ∃ root, s.workers (.slot 1) = some root ∧ root.signalNode = true

omit [DecidableEq τ] in
theorem signalRoot_eq (signals : RootSignals config s) : s.signalRoot config = some () := by
  unfold BindingState.signalRoot
  split
  case isTrue more =>
    obtain ⟨root, here, node⟩ := signals more
    simp [here, node]
  case isFalse => rfl

omit [DecidableEq τ] in
theorem enterCilk_eq (signals : RootSignals config s) : s.enterCilk config = some { s with Q := s.Q + 1 } := by
  unfold BindingState.enterCilk
  split <;> simp [signalRoot_eq signals]

omit [DecidableEq τ] in
theorem leaveCilk_eq (signals : RootSignals config s) : s.leaveCilk config = some { s with Q := s.Q - 1 } := by
  unfold BindingState.leaveCilk
  split <;> simp [signalRoot_eq signals]

omit [DecidableEq τ] in
/-- The root node stays where it is when another worker changes. -/
theorem RootSignals.of_workers (signals : RootSignals config s) (other : w ≠ .slot 1)
    {found : Option (BindingWorker τ)} (same : s'.workers = setAt s.workers w found) : RootSignals config s' := by
  intro more
  rw [same, setAt_other other.symm]
  exact signals more

/-- The worker uses the leaf of the pedigree of the thread. -/
theorem loadPedigreeLeaf_eq (here : s.workers w = some worker) (user : worker.type = .user)
    (noLeaf : worker.originalPedigreeLeaf = none) (valid : s.pedigreeRoot t = none → s.nextRoot ≠ -1) :
    ∃ root counter, s.loadPedigreeLeaf t w = some { s with
      workers := setAt s.workers w (some { worker with originalPedigreeLeaf := some t })
      pedigreeRoot := root
      pedigreeCounter := counter } := by
  obtain ⟨root, counter, leaf⟩ := getTlsPedigreeLeaf_eq valid
  exact ⟨root, counter, by simp [BindingState.loadPedigreeLeaf, here, user, noLeaf, leaf]⟩

/-- What `__cilkrts_bind_thread` does with the worker that was found. -/
theorem bindThread_eq {found : BindingState τ} (find : s.findFreeWorker config = some (w, found))
    (here : found.workers w = some worker) (user : worker.type = .user) (head : worker.head = 0)
    (tail : worker.tail = 0) (protectedTail : worker.protectedTail = config.ltqsize)
    (noLeaf : worker.originalPedigreeLeaf = none) (valid : found.pedigreeRoot t = none → found.nextRoot ≠ -1)
    (signals : RootSignals config found) (notRoot : w ≠ .slot 1) :
    ∃ root counter, s.bindThread config t = some { found with
      workers := setAt found.workers w (some (boundWorker worker t))
      tls := setAt found.tls t (some w)
      pedigreeRoot := root
      pedigreeCounter := counter
      Q := if worker.self ≠ -1 then found.Q + 1 else found.Q } := by
  let framed : BindingState τ := { found with
    tls := setAt found.tls t (some w)
    workers := setAt found.workers w (some { worker with frameFf := some ⟨1, t⟩ }) }
  obtain ⟨root, counter, load⟩ := loadPedigreeLeaf_eq (s := framed) (w := w) (t := t) (setAt_self _ _ _) user noLeaf
    valid
  refine ⟨root, counter, ?_⟩
  simp only [BindingState.bindThread, find, Option.bind_eq_bind, Option.bind_some, here]
  rw [show _ = some _ from load]
  simp only [framed, BindingState.setWorker, setAt_self, setAt_twice, Option.bind_some, cilkAssert_of head,
    cilkAssert_of tail, cilkAssert_of protectedTail]
  split
  case isTrue counted => exact enterCilk_eq (signals.of_workers notRoot rfl)
  case isFalse => rfl

omit [DecidableEq τ] in
/-- A worker of the table gets a scheduling fiber and can be stolen from. -/
theorem boundWorker_table (inTable : 0 ≤ worker.self) :
    boundWorker worker t =
      { worker with frameFf := some ⟨1, t⟩, originalPedigreeLeaf := some t, schedulingFiber := true } := by
  by_cases fiber : worker.schedulingFiber = true <;>
    simp [boundWorker, BindingState.prepareFiber, inTable, fiber]

omit [DecidableEq τ] in
/-- An overflow worker gets none and cannot. -/
theorem boundWorker_overflow (adHoc : worker.self = -1) (noFiber : worker.schedulingFiber = false) :
    boundWorker worker t =
      { worker with frameFf := some ⟨1, t⟩, originalPedigreeLeaf := some t, protectedTail := 0 } := by
  by_cases allowed : 0 < worker.protectedTail
  · simp [boundWorker, BindingState.prepareFiber, BindingWorker.disallowStealing, adHoc, noFiber, allowed]
  · have none : worker.protectedTail = 0 := Nat.eq_zero_of_not_pos allowed
    simp [boundWorker, BindingState.prepareFiber, BindingWorker.disallowStealing, adHoc, noFiber, none]

/-- A thread has what it had unless it is the one that gets something. -/
theorem tls_setAt {tls : τ → Option WorkerName} {found : Option WorkerName} {t' : τ}
    (held : setAt tls t found t' = some w) : (t' = t ∧ found = some w) ∨ (t' ≠ t ∧ tls t' = some w) := by
  by_cases same : t' = t
  · rw [same, setAt_self] at held
    exact .inl ⟨same, held⟩
  · rw [setAt_other same] at held
    exact .inr ⟨same, held⟩

omit [DecidableEq τ] in
theorem BindingInvariant.rootSignals (inv : BindingInvariant config s) : RootSignals config s := by
  intro more
  refine ⟨_, inv.rest 1 ((mem_table 1).mpr (by omega)) (by decide), ?_⟩
  rw [initSlot, if_pos ⟨le_rfl, more⟩]
  rfl

/-- The worker of slot 0 is bound. -/
theorem bindThread_zero (here : s.workers (.slot 0) = some worker) (free : worker.type = .free)
    (self : worker.self = 0) (untouched : Untouched config worker) (noLeaf : worker.originalPedigreeLeaf = none)
    (valid : s.pedigreeRoot t = none → s.nextRoot ≠ -1) (signals : RootSignals config s) :
    ∃ root counter bound, s.bindThread config t = some { s with
      workers := setAt s.workers (.slot 0) (some bound)
      tls := setAt s.tls t (some (.slot 0))
      pedigreeRoot := root
      pedigreeCounter := counter
      Q := s.Q + 1 } ∧ bound.self = 0 ∧ Untouched config bound ∧ Serves (.slot 0) t bound := by
  obtain ⟨root, counter, bound⟩ := bindThread_eq (t := t) (findFreeWorker_zero here free) makeUser_here rfl
    untouched.head untouched.tail untouched.protectedTail noLeaf valid (signals.of_workers (by decide) rfl) (by decide)
  refine ⟨root, counter, boundWorker { worker with type := .user, team := some (.slot 0) } t, bound.trans ?_, ?_⟩
  · simp [BindingState.makeUser, setAt_twice, self]
  · rw [boundWorker_table]
    · exact ⟨self, ⟨untouched.head, untouched.tail, untouched.protectedTail, untouched.signalNode⟩,
        ⟨rfl, rfl, rfl, rfl⟩⟩
    · exact self.ge

/-- A worker is made and bound. -/
theorem bindThread_overflow (one : config.P = 1) (here : s.workers (.slot 0) = some worker)
    (taken : worker.type = .user) (valid : s.pedigreeRoot t = none → s.nextRoot ≠ -1)
    (signals : RootSignals config s) :
    ∃ root counter bound, s.bindThread config t = some { s with
      workers := setAt s.workers (.overflow s.made) (some bound)
      made := s.made + 1
      tls := setAt s.tls t (some (.overflow s.made))
      pedigreeRoot := root
      pedigreeCounter := counter } ∧ bound.self = -1 ∧ bound.schedulingFiber = false ∧
      bound.signalNode = false ∧ bound.stats = true ∧ Serves (.overflow s.made) t bound := by
  obtain ⟨root, counter, bound⟩ := bindThread_eq (t := t) (findFreeWorker_overflow one here taken) makeUser_here rfl
    rfl rfl rfl rfl valid (signals.of_workers (w := .overflow s.made) nofun rfl) nofun
  refine ⟨root, counter, boundWorker { BindingWorker.make config (-1) with
    type := .user, team := some (.overflow s.made) } t, bound.trans ?_, ?_⟩
  · simp [BindingState.makeUser, setAt_twice, BindingWorker.make]
  · rw [boundWorker_overflow rfl rfl]
    exact ⟨rfl, rfl, rfl, rfl, ⟨rfl, rfl, rfl, rfl⟩⟩

/-- A thread that finds slot 0 free has its worker then. -/
theorem bind_zero (inv : BindingInvariant config s) (free : FreeSlot config s 0)
    (valid : s.pedigreeRoot t = none → s.nextRoot ≠ -1) :
    ∃ s', s.bindThread config t = some s' ∧ BindingInvariant config s' ∧ BindMeets config s t s' := by
  obtain ⟨inTable, worker, here, isFree⟩ := free
  obtain ⟨_, here', self, untouched, state⟩ := inv.zero
  obtain rfl := Option.some.inj (here.symm.trans here')
  obtain ⟨-, noLeaf, unheld, zero⟩ | ⟨_, serves, -⟩ := state
  case inr => exact absurd (serves.type.symm.trans isFree) (by decide)
  obtain ⟨root, counter, bound, taken, self', untouched', serves⟩ :=
    bindThread_zero here isFree self untouched noLeaf valid inv.rootSignals
  refine ⟨_, taken, ?_, inv.sound, .slot 0, bound, setAt_self s.tls t _, setAt_self s.workers (.slot 0) _,
    fun _ => ⟨0, ⟨inTable, worker, here, isFree⟩, rfl⟩,
    fun noneFree => absurd ⟨inTable, worker, here, isFree⟩ (noneFree 0)⟩
  have others : ∀ t' n, setAt s.tls t (some (WorkerName.slot 0)) t' = some (.overflow n) →
      s.tls t' = some (.overflow n) := by
    intro t' n held
    obtain ⟨-, same⟩ | ⟨-, before⟩ := tls_setAt held
    · cases same
    · exact before
  exact
    { sound := inv.sound
      rest := fun i inTable other =>
        (setAt_other (fun same => other (WorkerName.slot.inj same)) s.workers (some bound)).trans (inv.rest i inTable other)
      slots := fun t' i held => by
        obtain ⟨-, same⟩ | ⟨-, before⟩ := tls_setAt held
        · exact (WorkerName.slot.inj (Option.some.inj same)).symm
        · exact inv.slots t' i before
      zero := by
        refine ⟨bound, setAt_self s.workers (.slot 0) _, self', untouched', .inr ⟨t, serves, fun t' => ⟨fun held => ?_, ?_⟩, ?_⟩⟩
        · obtain ⟨same, -⟩ | ⟨-, before⟩ := tls_setAt held
          · exact same
          · exact absurd before (unheld t')
        · rintro rfl
          exact setAt_self _ _ _
        · exact congrArg (· + 1) zero
      overflow := fun t' n held => by
        obtain ⟨old, worker, here, rest⟩ := inv.overflow t' n (others t' n held)
        exact ⟨old, worker, (setAt_other (overflow_ne_slot n 0) s.workers (some bound)).trans here, rest⟩
      own := fun t' t'' n held held' => inv.own t' t'' n (others t' n held) (others t'' n held')
      fresh := fun n new => (setAt_other (overflow_ne_slot n 0) s.workers (some bound)).trans (inv.fresh n new) }

/-- A thread that finds all of the table busy has a new worker then. -/
theorem bind_overflow (inv : BindingInvariant config s) (unbound : s.tls t = none) (busy : ¬FreeSlot config s 0) (one : config.P = 1)
    (io : config.ioMode ≠ .normal) (valid : s.pedigreeRoot t = none → s.nextRoot ≠ -1) :
    ∃ s', s.bindThread config t = some s' ∧ BindingInvariant config s' ∧ BindMeets config s t s' := by
  obtain ⟨worker, here, self, untouched, state⟩ := inv.zero
  have noneFree : ∀ i, ¬FreeSlot config s i := by
    rintro i ⟨inTable, other, there, isFree⟩
    by_cases isZero : i = 0
    · exact busy (isZero ▸ ⟨inTable, other, there, isFree⟩)
    · have ioSlot : initSlot config i = (BindingWorker.make config i : BindingWorker τ).makeIo := by
        rw [initSlot, if_neg (by omega), if_pos ⟨by omega, io⟩]
      rw [inv.rest i inTable isZero, ioSlot] at there
      obtain rfl := Option.some.inj there
      exact absurd (show WorkerType.io = .free from isFree) (by decide)
  obtain ⟨isFree, -⟩ | ⟨holder, serves, holds, zero⟩ := state
  case inl => exact absurd ⟨zero_mem_table, worker, here, isFree⟩ busy
  obtain ⟨root, counter, bound, taken, self', noFiber, noNode, stats, serves'⟩ :=
    bindThread_overflow (t := t) one here serves.type valid inv.rootSignals
  refine ⟨_, taken, ?_, inv.sound, .overflow s.made, bound, setAt_self s.tls t _,
    setAt_self s.workers (.overflow s.made) _,
    fun ⟨i, free⟩ => absurd free (noneFree i), fun _ => ⟨⟨s.made, rfl⟩, inv.fresh _ le_rfl, self'⟩⟩
  have slots : ∀ t' i, setAt s.tls t (some (WorkerName.overflow s.made)) t' = some (.slot i) ↔
      s.tls t' = some (.slot i) := by
    intro t' i
    by_cases same : t' = t
    · rw [same, setAt_self, unbound]
      exact iff_of_false nofun nofun
    · rw [setAt_other same]
  exact
    { sound := inv.sound
      rest := fun i inTable other => (setAt_other (overflow_ne_slot s.made _).symm s.workers (some bound)).trans (inv.rest i inTable other)
      slots := fun t' i held => inv.slots t' i ((slots t' i).mp held)
      zero := ⟨worker, (setAt_other (overflow_ne_slot s.made _).symm s.workers (some bound)).trans here, self, untouched,
        .inr ⟨holder, serves, fun t' => (slots t' 0).trans (holds t'), zero⟩⟩
      overflow := fun t' n held => by
        obtain ⟨rfl, same⟩ | ⟨-, before⟩ := tls_setAt held
        · obtain rfl := WorkerName.overflow.inj (Option.some.inj same)
          exact ⟨Nat.lt_succ_self _, bound, setAt_self s.workers _ _, self', noFiber, noNode, stats, serves'⟩
        · obtain ⟨old, worker, there, rest⟩ := inv.overflow t' n before
          have other : WorkerName.overflow n ≠ .overflow s.made := fun same =>
            absurd old (WorkerName.overflow.inj same ▸ lt_irrefl _)
          exact ⟨Nat.lt_succ_of_lt old, worker, (setAt_other other s.workers (some bound)).trans there, rest⟩
      own := fun t' t'' n held held' => by
        obtain ⟨rfl, same⟩ | ⟨-, before⟩ := tls_setAt held <;>
          obtain ⟨rfl, same'⟩ | ⟨-, before'⟩ := tls_setAt held'
        · rfl
        · obtain rfl := WorkerName.overflow.inj (Option.some.inj same)
          exact absurd (inv.overflow t'' _ before').1 (lt_irrefl _)
        · obtain rfl := WorkerName.overflow.inj (Option.some.inj same')
          exact absurd (inv.overflow t' _ before).1 (lt_irrefl _)
        · exact inv.own t' t'' n before before'
      fresh := fun n new => by
        have other : WorkerName.overflow n ≠ .overflow s.made := fun same => by
          obtain rfl := WorkerName.overflow.inj same
          exact absurd new (Nat.not_succ_le_self _)
        exact (setAt_other other s.workers (some bound)).trans (inv.fresh n (Nat.le_of_succ_le new)) }

/-! ### A thread is unbound -/

/-- The worker of a thread that returned from its outermost Cilk function. -/
def returnedWorker (worker : BindingWorker τ) : BindingWorker τ :=
  { worker with frameFf := none, originalPedigreeLeaf := none }

omit [DecidableEq τ] in
/-- The frame and the leaf of the pedigree go. -/
theorem returnFromInitial_eq (here : s.workers w = some worker) (serves : Serves w t worker) :
    s.returnFromInitial w = some { s with workers := setAt s.workers w (some (returnedWorker worker)) } := by
  simp [returnedWorker, BindingState.returnFromInitial, BindingState.savePedigreeLeaf, here, serves.type, serves.frame, serves.leaf,
    setAt_twice]

/-- The worker of the table is free again. -/
theorem unbindThread_table (here : s.workers w = some worker) (inTable : worker.self ≠ -1)
    (signals : RootSignals config s) (notRoot : w ≠ .slot 1) :
    s.unbindThread config t w = some { s with
      tls := setAt s.tls t none
      workers := setAt s.workers w (some { worker with type := .free })
      Q := s.Q - 1 } := by
  simp only [BindingState.unbindThread, here, Option.bind_eq_bind, Option.bind_some, if_neg inTable]
  exact leaveCilk_eq (signals.of_workers notRoot rfl)

/-- The overflow worker is destroyed. -/
theorem unbindThread_overflow (here : s.workers w = some worker) (adHoc : worker.self = -1)
    (noFiber : worker.schedulingFiber = false) (noNode : worker.signalNode = false)
    (profile : config.profile = true) :
    s.unbindThread config t w = some { s with
      tls := setAt s.tls t none
      workers := setAt s.workers w none } := by
  simp [BindingState.unbindThread, BindingState.destroyWorkerAsserts, here, adHoc, noFiber, noNode, profile]

theorem unbindThread_stats (here : s.workers w = some worker) (adHoc : worker.self = -1)
    (noFiber : worker.schedulingFiber = false) (stats : worker.stats = true)
    (noProfile : config.profile = false) : s.unbindThread config t w = none := by
  simp [BindingState.unbindThread, BindingState.destroyWorkerAsserts, here, adHoc, noFiber, stats, noProfile]

theorem tls_setAt_none {tls : τ → Option WorkerName} {t' : τ} (held : setAt tls t none t' = some w) :
    t' ≠ t ∧ tls t' = some w := by
  obtain ⟨-, same⟩ | other := tls_setAt held
  · cases same
  · exact other

/-- A worker of the table that a thread leaves. -/
theorem unbind_table_eq (held : s.tls t = some w) (here : s.workers w = some worker) (serves : Serves w t worker)
    (inTable : worker.self ≠ -1) (signals : RootSignals config s) (notRoot : w ≠ .slot 1) :
    bindingOutcome config s (.unbind t) = some { s with
      tls := setAt s.tls t none
      workers := setAt s.workers w (some { returnedWorker worker with type := .free })
      Q := s.Q - 1 } := by
  simp only [bindingOutcome, held, Option.bind_eq_bind, Option.bind_some, returnFromInitial_eq here serves]
  have inTable' : (returnedWorker worker).self ≠ -1 := inTable
  rw [unbindThread_table (setAt_self _ _ _) inTable' (signals.of_workers notRoot rfl) notRoot, setAt_twice]

/-- The thread that has slot 0 leaves. -/
theorem unbind_zero (inv : BindingInvariant config s) (held : s.tls t = some (.slot 0)) :
    ∃ s', bindingOutcome config s (.unbind t) = some s' ∧ BindingInvariant config s' ∧ UnbindMeets s t s' := by
  obtain ⟨worker, here, self, untouched, ⟨_, _, unheld, _⟩ | ⟨holder, serves, holds, one⟩⟩ := inv.zero
  · exact absurd held (unheld t)
  obtain rfl := (holds t).mp held
  let freed : BindingWorker τ := { returnedWorker worker with type := .free }
  have outcome := unbind_table_eq held here serves (by rw [self]; decide) inv.rootSignals (by decide)
  refine ⟨_, outcome, ?_, inv.sound, setAt_self s.tls t none, fun i held' => ?_, fun n held' => ?_⟩
  · exact
      { sound := inv.sound
        rest := fun i inTable other => (setAt_other (fun same => other (WorkerName.slot.inj same)) s.workers
          (some freed)).trans (inv.rest i inTable other)
        slots := fun t' i held' => inv.slots t' i (tls_setAt_none held').2
        zero := ⟨freed, setAt_self s.workers (.slot 0) (some freed), self, ⟨untouched.head, untouched.tail,
          untouched.protectedTail, untouched.signalNode⟩, .inl ⟨rfl, rfl, fun t' held' =>
            absurd ((holds t').mp (tls_setAt_none held').2) (tls_setAt_none held').1, by rw [one]; rfl⟩⟩
        overflow := fun t' n held' => by
          obtain ⟨old, worker, there, rest⟩ := inv.overflow t' n (tls_setAt_none held').2
          exact ⟨old, worker, (setAt_other (overflow_ne_slot n 0) s.workers (some freed)).trans there, rest⟩
        own := fun t' t'' n held' held'' =>
          inv.own t' t'' n (tls_setAt_none held').2 (tls_setAt_none held'').2
        fresh := fun n new => (setAt_other (overflow_ne_slot n 0) s.workers (some freed)).trans (inv.fresh n new) }
  · obtain rfl := inv.slots t i held'
    exact ⟨freed, setAt_self s.workers (.slot 0) (some freed), rfl⟩
  · cases held.symm.trans held'

/-- A thread leaves its overflow worker. -/
theorem unbind_overflow (inv : BindingInvariant config s) {n : Nat} (held : s.tls t = some (.overflow n))
    (profile : config.profile = true) :
    ∃ s', bindingOutcome config s (.unbind t) = some s' ∧ BindingInvariant config s' ∧ UnbindMeets s t s' := by
  obtain ⟨old, worker, here, adHoc, noFiber, noNode, -, serves⟩ := inv.overflow t n held
  have outcome : bindingOutcome config s (.unbind t) = some { s with
      tls := setAt s.tls t none, workers := setAt s.workers (.overflow n) none } := by
    simp only [bindingOutcome, held, Option.bind_eq_bind, Option.bind_some, returnFromInitial_eq here serves]
    have adHoc' : (returnedWorker worker).self = -1 := adHoc
    rw [unbindThread_overflow (setAt_self _ _ _) adHoc' noFiber noNode profile, setAt_twice]
  have others : ∀ t' m, setAt s.tls t none t' = some (.overflow m) → WorkerName.overflow m ≠ .overflow n := by
    rintro t' m held' same
    obtain ⟨other, before⟩ := tls_setAt_none held'
    obtain rfl := WorkerName.overflow.inj same
    exact other (inv.own t' t m before held)
  obtain ⟨zero, there, self, untouched, state⟩ := inv.zero
  have slots : ∀ t', setAt s.tls t none t' = some (.slot 0) ↔ s.tls t' = some (.slot 0) := by
    intro t'
    by_cases same : t' = t
    · rw [same, setAt_self, held]
      exact iff_of_false nofun nofun
    · rw [setAt_other same]
  refine ⟨_, outcome, ?_, inv.sound, setAt_self s.tls t none, fun i held' => ?_, fun m held' => ?_⟩
  · exact
      { sound := inv.sound
        rest := fun i inTable other =>
          (setAt_other (overflow_ne_slot n i).symm s.workers none).trans (inv.rest i inTable other)
        slots := fun t' i held' => inv.slots t' i (tls_setAt_none held').2
        zero := ⟨zero, (setAt_other (overflow_ne_slot n 0).symm s.workers none).trans there, self, untouched,
          state.imp (fun free => ⟨free.1, free.2.1, fun t' => mt (slots t').mp (free.2.2.1 t'), free.2.2.2⟩)
            fun ⟨holder, serves, holds, one⟩ => ⟨holder, serves, fun t' => (slots t').trans (holds t'), one⟩⟩
        overflow := fun t' m held' => by
          obtain ⟨old, worker, there, rest⟩ := inv.overflow t' m (tls_setAt_none held').2
          exact ⟨old, worker, (setAt_other (others t' m held') s.workers none).trans there, rest⟩
        own := fun t' t'' m held' held'' =>
          inv.own t' t'' m (tls_setAt_none held').2 (tls_setAt_none held'').2
        fresh := fun m new => by
          have other : WorkerName.overflow m ≠ .overflow n := fun same =>
            absurd old (WorkerName.overflow.inj same ▸ not_lt.mpr new)
          exact (setAt_other other s.workers none).trans (inv.fresh m new) }
  · cases held.symm.trans held'
  · obtain rfl := WorkerName.overflow.inj (Option.some.inj (held.symm.trans held'))
    exact setAt_self s.workers (.overflow n) none

/-! ### All calls -/

/-- A call that is allowed keeps the invariant and does what it is to do. -/
theorem call_allowed (inv : BindingInvariant config s) {a : BindingLabel τ} (enabled : BindingEnabled s a)
    (allowed : BindingAllowed config s a) :
    ∃ s', bindingOutcome config s a = some s' ∧ BindingInvariant config s' ∧ CallMeets config s a s' := by
  cases a with
  | bind t =>
      by_cases free : FreeSlot config s 0
      · exact bind_zero inv free allowed.2
      · obtain ⟨one, io⟩ := allowed.1.resolve_left free
        exact bind_overflow inv enabled.2 free one io allowed.2
  | unbind t =>
      obtain ⟨w, held⟩ := Option.ne_none_iff_exists'.mp enabled.2
      cases w with
      | slot i =>
          obtain rfl := inv.slots t i held
          exact unbind_zero inv held
      | overflow n =>
          refine unbind_overflow inv held (allowed.resolve_left fun ⟨i, inTable⟩ => ?_)
          cases held.symm.trans inTable

omit [DecidableEq τ] in
theorem findFreeWorker_pedigree {found : BindingState τ} (find : s.findFreeWorker config = some (w, found)) :
    found.pedigreeRoot = s.pedigreeRoot ∧ found.pedigreeCounter = s.pedigreeCounter := by
  obtain ⟨chosen, -, choice⟩ := Option.bind_eq_some_iff.mp find
  rcases chosen with _ | ⟨i, worker⟩ <;>
    · obtain ⟨-, rfl⟩ := Prod.mk.inj (Option.some.inj choice)
      exact ⟨rfl, rfl⟩

/-- A thread without a pedigree that was bound got a valid rank. -/
theorem bindThread_valid (taken : s.bindThread config t = some s') (new : s.pedigreeRoot t = none) :
    s.nextRoot ≠ -1 := by
  intro invalid
  cases find : s.findFreeWorker config with
  | none => simp [BindingState.bindThread, find] at taken
  | some chosen =>
      obtain ⟨w, found⟩ := chosen
      obtain ⟨sameRoot, sameCounter⟩ := findFreeWorker_pedigree find
      have noLeaf : ∀ framed : BindingState τ, framed.pedigreeRoot = s.pedigreeRoot →
          framed.pedigreeCounter = s.pedigreeCounter → ∀ loaded, framed.loadPedigreeLeaf t w ≠ some loaded := by
        intro framed root counter loaded
        have none := getTlsPedigreeLeaf_none (s := framed) (t := t) (root ▸ new)
          (by rw [BindingState.nextRoot, counter]; exact invalid)
        simp [BindingState.loadPedigreeLeaf, none]
      simp only [BindingState.bindThread, find, Option.bind_eq_bind, Option.bind_some] at taken
      obtain ⟨worker, -, taken⟩ := Option.bind_eq_some_iff.mp taken
      obtain ⟨_, load, -⟩ := Option.bind_eq_some_iff.mp taken
      refine noLeaf _ ?_ ?_ _ load
      · exact sameRoot
      · exact sameCounter

/-- Only a call that is allowed does what it is to do. -/
theorem allowed_of_meets (inv : BindingInvariant config s) {a : BindingLabel τ}
    (taken : bindingOutcome config s a = some s') (meets : CallMeets config s a s') :
    BindingAllowed config s a := by
  cases a with
  | bind t =>
      refine ⟨Classical.byContradiction fun neither => ?_, bindThread_valid taken⟩
      obtain ⟨busy, notIo⟩ := not_or.mp neither
      obtain ⟨worker, here, -, -, ⟨isFree, -⟩ | ⟨holder, serves, -⟩⟩ := inv.zero
      · exact busy ⟨zero_mem_table, worker, here, isFree⟩
      by_cases one : config.P = 1
      · -- Slot 1 is free, and is not looked at.
        have normal : config.ioMode = .normal := Classical.byContradiction fun io => notIo ⟨one, io⟩
        have inTable : 1 ∈ config.table := (mem_table 1).mpr (by omega)
        have slot : initSlot config 1 = (BindingWorker.make config 1 : BindingWorker τ) := by
          rw [initSlot, if_neg (by omega), if_neg fun io => io.2 normal]
          rfl
        have free : FreeSlot config s 1 := ⟨inTable, _, (inv.rest 1 inTable (by decide)).trans (congrArg some slot), rfl⟩
        obtain ⟨-, w, _, held, -, fromTable, -⟩ := meets
        obtain ⟨i, -, rfl⟩ := fromTable ⟨1, free⟩
        obtain ⟨root, counter, bound, made, -⟩ :=
          bindThread_overflow one here serves.type (bindThread_valid taken) inv.rootSignals
        obtain rfl := Option.some.inj (taken.symm.trans made)
        cases (setAt_self s.tls t _).symm.trans held
      · have nothing : s.bindThread config t = none := by
          rw [BindingState.bindThread, findFreeWorker_system inv one here serves.type]
          rfl
        cases nothing.symm.trans taken
  | unbind t =>
      refine Classical.byContradiction fun neither => ?_
      obtain ⟨notTable, noProfile⟩ := not_or.mp neither
      obtain ⟨w, held, taken⟩ := Option.bind_eq_some_iff.mp taken
      cases w with
      | slot i => exact notTable ⟨i, held⟩
      | overflow n =>
          obtain ⟨old, worker, here, adHoc, noFiber, noNode, stats, serves⟩ := inv.overflow t n held
          have adHoc' : (returnedWorker worker).self = -1 := adHoc
          simp only [returnFromInitial_eq here serves, Option.bind_eq_bind, Option.bind_some] at taken
          rw [unbindThread_stats (setAt_self _ _ _) adHoc' noFiber stats ((Bool.not_eq_true _).mp noProfile)] at taken
          cases taken

/-- The runtime with two workers. -/
def bindingOfTwo : BindingConfig := ⟨2, by decide, .sharedCore, 8192, false⟩

end CilkL
