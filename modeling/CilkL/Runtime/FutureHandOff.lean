/-
Module: CilkL.Runtime.FutureHandOff
Layer: Runtime
Purpose: The direct hand-off of a finished future to its first waiter, with the call stacks of all
  deques: a future's pointer may be known before `__spawn_future_helper_helper` is called on it, its
  parent's continuation is in a deque until a thief takes it, and `__cilkrts_resume_suspended(., 2)`
  destroys the active deque. The list of waiting deques is a list. A location that is used for a future
  again counts as another future.
Imports: CilkL.Library.Machine, CilkL.Runtime.Future
Trusted boundary: human-reviewed spec (translated from future.h, cilk-abi-future.cpp, deque_pool.c and
  deque.c)
Main exports: CallLink, StrandPc, HandOffState, handOffStep, handOffMachine, SpawnedFirst
Open obligations: none
-/
import CilkL.Library.Machine
import CilkL.Runtime.Future

namespace CilkL

/-- How a function below the running one invoked the function above it. -/
inductive CallLink (φ : Type) where
  | called
  /-- By a spawn: its continuation is in the deque. -/
  | spawned
  /-- `__spawn_future_helper_helper` on a future: its continuation is in the deque, and a fiber for the
      future is queued. -/
  | future (f : φ)
deriving DecidableEq, Repr

/-- What the strand on a deque is doing. -/
inductive StrandPc (φ : Type) where
  /-- The deque is not in use yet. -/
  | unused
  | running
  /-- In `get`: the future was not ready. -/
  | drawing (f : φ)
  /-- It drew a ticket, and is about to insert its deque into the list. -/
  | drawn (f : φ)
  /-- About to suspend. -/
  | inserted (f : φ)
  /-- Suspended. -/
  | waiting (f : φ)
  | resumable (f : φ)
  /-- In `put`, called by `__spawn_future_helper`. -/
  | putting (f : φ)
  /-- The deque was destroyed, or its strand has ended. -/
  | over
deriving DecidableEq, Repr

/-- Where `put` of a future is. -/
inductive HandOffPut (δ : Type) where
  | idle
  /-- It stored the result. -/
  | stored
  /-- In its loops over the list, with the locals `num_deques` and `ret`. -/
  | walk (numDeques : Int) (ret : Option δ)
  | returned (ret : Option δ)
  /-- The deque it returned was resumed. -/
  | handed
deriving DecidableEq, Repr

/-- The futures, the deques and the assertion of `deque_destroy`. -/
structure HandOffState (φ δ : Type) where
  mNumSuspendedDeques : φ → Int
  /-- The deques in the list of a future, oldest first, without those made resumable. -/
  waiters : φ → List δ
  /-- `__spawn_future_helper_helper` was called on the future. -/
  spawned : φ → Bool
  put : φ → HandOffPut δ
  pc : δ → StrandPc φ
  /-- The functions below the running one, youngest first. -/
  callers : δ → List (CallLink φ)
  /-- The future whose helper is the oldest function of the deque. -/
  bottom : δ → Option φ
  /-- The deques whose destruction found `head != tail`. -/
  failures : List δ

/-- Entries of the deque between `head` and `tail`. -/
def ltq {φ : Type} [DecidableEq φ] (callers : List (CallLink φ)) : List (CallLink φ) :=
  callers.filter (· ≠ .called)

/-- Fibers in the deque's queue of future fibers. -/
def futureFibers {φ : Type} : List (CallLink φ) → List φ
  | [] => []
  | .future f :: callers => f :: futureFibers callers
  | _ :: callers => futureFibers callers

/-- The continuation at the head of a deque: the functions above it, how it invoked the one above it,
    and the functions it was called through. -/
def splitHead {φ : Type} [DecidableEq φ] :
    List (CallLink φ) → Option (List (CallLink φ) × CallLink φ × List (CallLink φ))
  | [] => none
  | link :: callers =>
      match splitHead callers with
      | some (younger, head, older) => some (link :: younger, head, older)
      | none => if link = .called then none else some ([], link, callers)

/-- The future whose helper was invoked by the link. -/
def CallLink.future? {φ : Type} : CallLink φ → Option φ
  | .future f => some f
  | _ => none

variable {φ δ : Type} [DecidableEq φ] [DecidableEq δ]

/-- The future whose helper is the running function of a deque, if it is one. -/
def HandOffState.helper (s : HandOffState φ δ) (d : δ) : Option φ :=
  match s.callers d with
  | [] => s.bottom d
  | link :: _ => link.future?

/-- The steps of the strands, named by their deques, and of the thieves. -/
inductive HandOffLabel (φ δ : Type) where
  | call (d : δ)
  | spawn (d : δ)
  /-- `__spawn_future_helper_helper` up to the call of the future's function. -/
  | spawnFuture (d : δ) (f : φ)
  /-- The running function, which is no future's helper, returns. -/
  | leave (d : δ)
  /-- A thief takes the head of `d` and runs it on its own deque `e`. -/
  | steal (d e : δ)
  | getTest (d : δ) (f : φ)
  | getFetchAdd (d : δ)
  | getInsert (d : δ)
  | getSuspend (d : δ)
  /-- A worker goes on with a resumable deque. -/
  | run (d : δ)
  /-- The future's function returned. -/
  | put (d : δ)
  | putFetchAdd (d : δ)
  /-- One round of the loops of `put`. -/
  | putRead (d : δ)
  /-- `__cilkrts_resume_suspended(deque, 2)`. -/
  | handOff (d : δ)
  /-- `__spawn_future_helper` returns without a deque to resume. -/
  | helperReturn (d : δ)
deriving DecidableEq, Repr

namespace HandOffState

abbrev setPc (s : HandOffState φ δ) (d : δ) (pc : StrandPc φ) : HandOffState φ δ :=
  { s with pc := setAt s.pc d pc }

abbrev setCallers (s : HandOffState φ δ) (d : δ) (callers : List (CallLink φ)) : HandOffState φ δ :=
  { s with callers := setAt s.callers d callers }

abbrev setPut (s : HandOffState φ δ) (f : φ) (put : HandOffPut δ) : HandOffState φ δ :=
  { s with put := setAt s.put f put }

/-- `get` draws its ticket. -/
def fetchAddTicket (s : HandOffState φ δ) (d : δ) (f : φ) : HandOffState φ δ :=
  let ticket := s.mNumSuspendedDeques f
  { s with mNumSuspendedDeques := setAt s.mNumSuspendedDeques f (wrapInt (ticket + 1)) }.setPc d
    (if 0 ≤ ticket then .drawn f else .running)

/-- `put` adds `INT32_MIN`. -/
def fetchAddPut (s : HandOffState φ δ) (f : φ) : HandOffState φ δ :=
  let numDeques := s.mNumSuspendedDeques f
  { s with mNumSuspendedDeques := setAt s.mNumSuspendedDeques f (wrapInt (numDeques + int32Min)) }.setPut f
    (if 0 < numDeques then .walk numDeques none else .returned none)

/-- `deque_destroy`. -/
def dequeDestroy (s : HandOffState φ δ) (d : δ) : HandOffState φ δ :=
  { s with failures := if ltq (s.callers d) = [] then s.failures else d :: s.failures }.setPc d .over

end HandOffState

/-- One step. A failed assertion ends the program. -/
def handOffStep (s : HandOffState φ δ) (label : HandOffLabel φ δ) : Option (HandOffState φ δ) :=
  if s.failures ≠ [] then none
  else match label with
  | .call d => if s.pc d = .running then some (s.setCallers d (.called :: s.callers d)) else none
  | .spawn d => if s.pc d = .running then some (s.setCallers d (.spawned :: s.callers d)) else none
  | .spawnFuture d f =>
      if s.pc d = .running ∧ s.spawned f = false then
        some { s.setCallers d (.future f :: s.callers d) with spawned := setAt s.spawned f true }
      else none
  | .leave d =>
      if s.pc d = .running ∧ s.helper d = none then
        match s.callers d with
        | [] => some (s.setPc d .over)
        | _ :: callers => some (s.setCallers d callers)
      else none
  | .steal d e =>
      if s.pc d ≠ .unused ∧ s.pc e = .unused then
        match splitHead (s.callers d) with
        | some (younger, head, older) =>
            some { s with
              pc := setAt s.pc e .running
              callers := setAt (setAt s.callers d younger) e older
              bottom := setAt (setAt s.bottom d head.future?) e (s.bottom d) }
        | none => none
      else none
  | .getTest d f =>
      if s.pc d = .running then
        some (if s.mNumSuspendedDeques f < 0 then s else s.setPc d (.drawing f))
      else none
  | .getFetchAdd d =>
      match s.pc d with
      | .drawing f => some (s.fetchAddTicket d f)
      | _ => none
  | .getInsert d =>
      match s.pc d with
      | .drawn f =>
          some { s.setPc d (.inserted f) with waiters := setAt s.waiters f (s.waiters f ++ [d]) }
      | _ => none
  | .getSuspend d =>
      match s.pc d with
      | .inserted f => some (s.setPc d (.waiting f))
      | _ => none
  | .run d =>
      match s.pc d with
      | .resumable _ => some (s.setPc d .running)
      | _ => none
  | .put d =>
      match s.helper d with
      | some f =>
          if s.pc d = .running ∧ s.put f = .idle then some ((s.setPc d (.putting f)).setPut f .stored)
          else none
      | none => none
  | .putFetchAdd d =>
      match s.pc d with
      | .putting f => if s.put f = .stored then some (s.fetchAddPut f) else none
      | _ => none
  | .putRead d =>
      match s.pc d with
      | .putting f =>
          match s.put f, s.waiters f with
          | .walk numDeques none, w :: _ => some (s.setPut f (.walk (numDeques - 1) (some w)))
          | .walk numDeques (some ret), waiters =>
              if numDeques = 0 then some (s.setPut f (.returned (some ret)))
              else
                match waiters with
                | first :: w :: rest =>
                    match s.pc w with
                    | .waiting g =>
                        some (({ s with waiters := setAt s.waiters f (first :: rest) }.setPc w
                          (.resumable g)).setPut f (.walk (numDeques - 1) (some ret)))
                    | _ => none
                | _ => none
          | _, _ => none
      | _ => none
  | .handOff d =>
      match s.pc d with
      | .putting f =>
          match s.put f with
          | .returned (some w) =>
              match s.pc w with
              | .waiting _ =>
                  some ((({ s with waiters := setAt s.waiters f (s.waiters f).tail }.dequeDestroy
                    d).setPc w .running).setPut f .handed)
              | _ => none
          | _ => none
      | _ => none
  | .helperReturn d =>
      match s.pc d with
      | .putting f =>
          if s.put f = .returned none then
            match s.callers d with
            | [] => some (s.setPc d .over)
            | _ :: callers => some ((s.setPc d .running).setCallers d callers)
          else none
      | _ => none

/-- Futures that nobody has called yet, and strands with empty deques. -/
def HandOffState.Initial (s : HandOffState φ δ) : Prop :=
  (∀ f, s.mNumSuspendedDeques f = 0 ∧ s.waiters f = [] ∧ s.spawned f = false ∧ s.put f = .idle) ∧
    (∀ d, (s.pc d = .unused ∨ s.pc d = .running) ∧ s.callers d = [] ∧ s.bottom d = none) ∧
    s.failures = []

variable (φ δ) in
def handOffMachine : Machine (HandOffState φ δ) (HandOffLabel φ δ) where
  start := HandOffState.Initial
  step := handOffStep

/-- A strand draws a ticket on a future only after the future was spawned, and not while the
    continuation of the spawn is in another deque than its own. -/
def SpawnedFirst (s : HandOffState φ δ) : HandOffLabel φ δ → Prop
  | .getFetchAdd d =>
      ∀ f, s.pc d = .drawing f → s.spawned f = true ∧ ∀ e, e ≠ d → .future f ∉ s.callers e
  | _ => True

end CilkL
