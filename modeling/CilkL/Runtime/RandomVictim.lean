/-
Module: CilkL.Runtime.RandomVictim
Layer: Runtime
Purpose: The pseudo-random generator of each worker (`myrand`, `mysrand`), when a worker's seed is set, what a
  worker that draws from it may be doing, and the victims that `random_steal`, `choose_deque`, `deque_suspend`
  and `__cilkrts_make_resumable` compute from what they draw. Any workers draw in any order.
  `calc_max_user_workers` returns 1, so `total_workers` is `P`. The victim that a replay takes instead is left
  out.
Imports: CilkL.Library.Machine, CilkL.Runtime.Future, CilkL.Runtime.Shutdown
Trusted boundary: human-reviewed spec (translated from scheduler.c, deque.c, deque_pool.c and sysdep-unix.c)
Main exports: myrandState, mysrandState, DrawSite, VictimConfig, RandState, CallsMyrand, randMachine,
  randomStealVictim, twoVictims, chooseDequeIndex
Open obligations: none
-/
import CilkL.Library.Machine
import CilkL.Runtime.Future
import CilkL.Runtime.Shutdown

namespace CilkL

/-! ### The generator -/

/-- `RNGMOD`, which is 2^32 - 5. -/
def rngMod : UInt32 := 4294967291

/-- `RNGMUL`. -/
def rngMul : UInt32 := 69070

/-- The state that `myrand` stores and returns. -/
def myrandState (state : UInt32) : UInt32 :=
  (rngMul.toUInt64 * state.toUInt64 % rngMod.toUInt64).toUInt32

/-- The state that `mysrand` stores. -/
def mysrandState (seed : UInt32) : UInt32 :=
  let seed := seed % rngMod
  seed + (if seed = 0 then 1 else 0)

/-! ### The workers -/

/-- The calls of `myrand`. -/
inductive DrawSite where
  | randomSteal
  | chooseDeque
  | dequeSuspend
  | makeResumable
deriving DecidableEq, Repr

/-- The workers of a runtime, those that were made when the table had no free one among them. A worker that
is free becomes a user worker before it does anything. -/
structure VictimConfig (ω : Type) where
  P : Nat
  self : ω → Int
  type : ω → WorkerType

/-- The generators. -/
structure RandState (ω : Type) where
  /-- `l->rand_seed`. -/
  randSeed : ω → UInt32
  /-- The worker has run `worker_scheduler_init_function`. -/
  scheduling : ω → Bool

variable {ω : Type}

/-- What a worker may do that calls `myrand`. A system worker runs the scheduling function from the start of its
thread; a user worker runs user code before, and starts its scheduling fiber when it first has to wait; the
thread of an I/O worker does not run it, and makes deques resumable. With one worker there is no choice among
workers. -/
def CallsMyrand (config : VictimConfig ω) (s : RandState ω) (w : ω) : DrawSite → Prop
  | .randomSteal => config.type w ≠ .io ∧ s.scheduling w = true ∧ 1 < config.P
  | .chooseDeque => config.type w ≠ .io ∧ s.scheduling w = true
  | .dequeSuspend => config.type w ≠ .io ∧ (config.type w = .system → s.scheduling w = true) ∧ 1 < config.P
  | .makeResumable => (config.type w = .system → s.scheduling w = true) ∧ 1 < config.P

instance (config : VictimConfig ω) (s : RandState ω) (w : ω) : (site : DrawSite) →
    Decidable (CallsMyrand config s w site)
  | .randomSteal => inferInstanceAs (Decidable (config.type w ≠ .io ∧ s.scheduling w = true ∧ 1 < config.P))
  | .chooseDeque => inferInstanceAs (Decidable (config.type w ≠ .io ∧ s.scheduling w = true))
  | .dequeSuspend => inferInstanceAs (Decidable
      (config.type w ≠ .io ∧ (config.type w = .system → s.scheduling w = true) ∧ 1 < config.P))
  | .makeResumable => inferInstanceAs (Decidable
      ((config.type w = .system → s.scheduling w = true) ∧ 1 < config.P))

/-- What happens to the generators. -/
inductive RandLabel (ω : Type) where
  /-- `worker_scheduler_init_function`. -/
  | schedulerInit (w : ω)
  | draw (w : ω) (site : DrawSite)
deriving DecidableEq, Repr

variable [DecidableEq ω]

/-- One call of `mysrand` or `myrand`. -/
def randStep (config : VictimConfig ω) (s : RandState ω) : RandLabel ω → Option (RandState ω)
  | .schedulerInit w =>
      -- For other types of workers the function ends the program.
      if config.type w = .user ∨ config.type w = .system then
        some ⟨setAt s.randSeed w (mysrandState (UInt32.ofInt (config.self w + 1))), setAt s.scheduling w true⟩
      else none
  | .draw w site =>
      if CallsMyrand config s w site then
        some { s with randSeed := setAt s.randSeed w (myrandState (s.randSeed w)) }
      else none

/-- The generators from `make_worker` on. -/
def randMachine (config : VictimConfig ω) : Machine (RandState ω) (RandLabel ω) where
  start s := s = ⟨fun _ => 0, fun _ => false⟩
  step := randStep config

/-! ### The victims -/

/-- The victim of `random_steal`, from what is drawn and the number of the suspended and resumable deques that the
worker has itself. -/
def randomStealVictim (P : Nat) (self : Int) (ownDeques : Nat) (drawn : UInt32) : Nat :=
  if P = 1 then 0
  else if ownDeques = 0 then
    let n := drawn.toNat % (P - 1)
    -- Another victim.
    if self ≤ n then n + 1 else n
  else drawn.toNat % P

/-- The two workers between which `deque_suspend` and `__cilkrts_make_resumable` choose. -/
def twoVictims (P : Nat) (drawn drawn2 : UInt32) : Nat × Nat :=
  let victimIdx := drawn.toNat % P
  let victim2Idx := drawn2.toNat % (P - 1)
  (victimIdx, if victimIdx ≤ victim2Idx then victim2Idx + 1 else victim2Idx)

/-- The index in `choose_deque`, which is 0 for the active deque: `size` is that of the pool, which is the pool of
the resumable deques where the victim has some. -/
def chooseDequeIndex (isVictim resumable : Bool) (size : Nat) (drawn : UInt32) : Nat :=
  if resumable then size
  else if isVictim && 0 < size then drawn.toNat % size + 1
  else drawn.toNat % (size + 1)

end CilkL
