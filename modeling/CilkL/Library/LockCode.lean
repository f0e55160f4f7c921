/-
Module: CilkL.Library.LockCode
Layer: Library
Purpose: Threads that run code with test-and-set locks. The code of a thread is what it does with locks,
  with its branches; a lock is a word that is exchanged, and for some locks a field for the owner that the
  code asserts. `Keeps` is the discipline: each lock that a thread waits for is above all that it has, and the
  sections nest.
Imports: CilkL.Library.Machine, Mathlib.Logic.Function.Basic, Mathlib.Order.Basic
Trusted boundary: none
Main exports: LockCode, LockOrder, LockCode.Keeps, LockCode.Inside, LockThread, LockState, lockStep, lockMachine
Open obligations: none
-/
import CilkL.Library.Machine
import Mathlib.Logic.Function.Basic
import Mathlib.Order.Basic

namespace CilkL

/-! ### Code -/

/-- What a thread does with locks, up to where it ends. -/
inductive LockCode (ℓ : Type) where
  | done
  /-- It waits for the lock. -/
  | lock (l : ℓ) (next : LockCode ℓ)
  | tryLock (l : ℓ) (taken missed : LockCode ℓ)
  | unlock (l : ℓ) (next : LockCode ℓ)
  /-- It sets its flag, which is asserted to be clear. -/
  | setFlag (next : LockCode ℓ)
  /-- It clears its flag, which is asserted to be set. -/
  | clearFlag (next : LockCode ℓ)
  /-- It reads the owner, and goes on where that is itself or where that is not itself; elsewhere it fails. -/
  | readOwner (l : ℓ) (mine : Bool) (next : LockCode ℓ)
  | branch (left right : LockCode ℓ)
deriving DecidableEq, Repr

/-- The locks: which of them have an owner, and their places in the order. -/
structure LockOrder (ℓ κ : Type) where
  owned : ℓ → Bool
  rank : ℓ → κ

namespace LockCode

variable {ℓ : Type} {κ : Type} [Preorder κ] {locks : LockOrder ℓ κ} {held held' held'' : List ℓ}
  {flag flag' flag'' : Bool} {code next : LockCode ℓ} {codes : List (LockCode ℓ)} {l : ℓ}

/-- One piece of code after another. -/
def andThen : LockCode ℓ → LockCode ℓ → LockCode ℓ
  | done, last => last
  | lock l next, last => lock l (next.andThen last)
  | tryLock l taken missed, last => tryLock l (taken.andThen last) (missed.andThen last)
  | unlock l next, last => unlock l (next.andThen last)
  | setFlag next, last => setFlag (next.andThen last)
  | clearFlag next, last => clearFlag (next.andThen last)
  | readOwner l mine next, last => readOwner l mine (next.andThen last)
  | branch left right, last => branch (left.andThen last) (right.andThen last)

/-- Statements in their order. -/
def block (codes : List (LockCode ℓ)) : LockCode ℓ := codes.foldr andThen done

/-- A critical section. -/
def within (l : ℓ) (body : LockCode ℓ) : LockCode ℓ := lock l (body.andThen (unlock l done))

/-- Code that may be left out. -/
def maybe (body : LockCode ℓ) : LockCode ℓ := branch body done

/-- A loop. -/
def times (body : LockCode ℓ) : Nat → LockCode ℓ
  | 0 => done
  | n + 1 => body.andThen (times body n)

/-- From some locks and a flag to others: what is waited for is above all that the thread has, and the lock that
was taken last is the first to be released. -/
def Keeps (locks : LockOrder ℓ κ) : LockCode ℓ → List ℓ → Bool → List ℓ → Bool → Prop
  | done, held, flag, held', flag' => held = held' ∧ flag = flag'
  | lock l next, held, flag, held', flag' => 
      (∀ x ∈ held, locks.rank x < locks.rank l) ∧ next.Keeps locks (l :: held) flag held' flag'
  | tryLock l taken missed, held, flag, held', flag' =>
      l ∉ held ∧ taken.Keeps locks (l :: held) flag held' flag' ∧ missed.Keeps locks held flag held' flag'
  | unlock l next, held, flag, held', flag' => held.head? = some l ∧ next.Keeps locks held.tail flag held' flag'
  | setFlag next, held, flag, held', flag' => flag = false ∧ next.Keeps locks held true held' flag'
  | clearFlag next, held, flag, held', flag' => flag = true ∧ next.Keeps locks held false held' flag'
  | readOwner l mine next, held, flag, held', flag' =>
      locks.owned l = true ∧ (mine = true ↔ l ∈ held) ∧ next.Keeps locks held flag held' flag'
  | branch left right, held, flag, held', flag' =>
      left.Keeps locks held flag held' flag' ∧ right.Keeps locks held flag held' flag'

theorem Keeps.andThen (first : code.Keeps locks held flag held' flag')
    (second : next.Keeps locks held' flag' held'' flag'') : (code.andThen next).Keeps locks held
      flag held'' flag'' := by
  induction code generalizing held flag with
  | done =>
    obtain ⟨rfl, rfl⟩ := first
    exact second
  | lock l rest ih => exact ⟨first.1, ih first.2⟩
  | tryLock l taken missed ihTaken ihMissed => exact ⟨first.1, ihTaken first.2.1, ihMissed first.2.2⟩
  | unlock l rest ih => exact ⟨first.1, ih first.2⟩
  | setFlag rest ih => exact ⟨first.1, ih first.2⟩
  | clearFlag rest ih => exact ⟨first.1, ih first.2⟩
  | readOwner l mine rest ih => exact ⟨first.1, first.2.1, ih first.2.2⟩
  | branch left right ihLeft ihRight => exact ⟨ihLeft first.1, ihRight first.2⟩

theorem keeps_done : (done : LockCode ℓ).Keeps locks held flag held flag := ⟨rfl, rfl⟩

/-- Statements each of which leaves the locks and the flag as they were. -/
theorem Keeps.block (all : ∀ code ∈ codes, code.Keeps locks held flag held flag) :
    (block codes).Keeps locks held flag held flag := by
  induction codes with
  | nil => exact keeps_done
  | cons code codes ih =>
    obtain ⟨first, rest⟩ := List.forall_mem_cons.1 all
    exact first.andThen (ih rest)

theorem Keeps.within (above : ∀ x ∈ held, locks.rank x < locks.rank l)
    (body : code.Keeps locks (l :: held) flag (l :: held) flag) :
      (within l code).Keeps locks held flag held flag :=
  ⟨above, body.andThen ⟨rfl, keeps_done⟩⟩

theorem Keeps.maybe (body : code.Keeps locks held flag held flag) :
    (maybe code).Keeps locks held flag held flag :=
  ⟨body, keeps_done⟩

theorem Keeps.times (body : code.Keeps locks held flag held flag) (n : Nat) :
    (times code n).Keeps locks held flag held flag := by
  induction n with
  | zero => exact keeps_done
  | succ n ih => exact body.andThen ih

/-- The code is inside a critical section of a lock: it releases the lock before it takes it again. -/
def Inside (l : ℓ) : LockCode ℓ → Prop
  | done => False
  | lock l' next => l' ≠ l ∧ next.Inside l
  | tryLock l' taken missed => l' ≠ l ∧ taken.Inside l ∧ missed.Inside l
  | unlock l' next => l' = l ∨ next.Inside l
  | setFlag next | clearFlag next | readOwner _ _ next => next.Inside l
  | branch left right => left.Inside l ∧ right.Inside l

/-- Such code has the lock. -/
theorem Keeps.mem_of_inside (keeps : code.Keeps locks held flag held' flag') (inside : code.Inside l) :
    l ∈ held := by
  induction code generalizing held flag with
  | done => exact inside.elim
  | lock l' next ih =>
    have member := ih keeps.2 inside.2
    exact (List.mem_cons.1 member).resolve_left (Ne.symm inside.1)
  | tryLock l' taken missed ihTaken ihMissed => exact ihMissed keeps.2.2 inside.2.2
  | unlock l' next ih =>
    rcases inside with rfl | inside
    · exact List.mem_of_mem_head? keeps.1
    · exact List.mem_of_mem_tail (ih keeps.2 inside)
  | setFlag next ih => exact ih keeps.2 inside
  | clearFlag next ih => exact ih keeps.2 inside
  | readOwner l' mine next ih => exact ih keeps.2.2 inside
  | branch left right ihLeft ihRight => exact ihLeft keeps.1 inside.1

/-- The steps that are left, with some to spare for a thread that spins. -/
def weight : LockCode ℓ → Nat
  | done => 0
  | lock _ next | unlock _ next => next.weight + 3
  | tryLock _ taken missed => taken.weight + missed.weight + 3
  | setFlag next | clearFlag next | readOwner _ _ next => next.weight + 3
  | branch left right => left.weight + right.weight + 3

end LockCode

/-! ### Threads -/

/-- Where a thread is in an operation on a lock. -/
inductive LockPhase where
  /-- Before its first step. -/
  | ready
  /-- In the loop that reads the word. -/
  | spinning
  /-- It has exchanged the word, and not yet stored the owner. -/
  | acquired
  /-- It has cleared the owner, and not yet the word. -/
  | releasing
deriving DecidableEq, Repr

/-- A thread. -/
structure LockThread (ℓ : Type) where
  flag : Bool
  code : LockCode ℓ
  phase : LockPhase
deriving DecidableEq, Repr

/-- The locks and the threads. -/
structure LockState (τ ℓ : Type) where
  word : ℓ → Bool
  owner : ℓ → Option τ
  thread : τ → LockThread ℓ

namespace LockState

variable {τ ℓ : Type} [DecidableEq τ] [DecidableEq ℓ]

def setThread (s : LockState τ ℓ) (t : τ) (x : LockThread ℓ) : LockState τ ℓ :=
  { s with thread := Function.update s.thread t x }

def setWord (s : LockState τ ℓ) (l : ℓ) (word : Bool) : LockState τ ℓ :=
  { s with word := Function.update s.word l word }

def setOwner (s : LockState τ ℓ) (l : ℓ) (owner : Option τ) : LockState τ ℓ :=
  { s with owner := Function.update s.owner l owner }

/-- A thread waits for a lock whose word is set. -/
def Waits (s : LockState τ ℓ) (t : τ) (l : ℓ) : Prop :=
  (∃ next, (s.thread t).code = .lock l next) ∧ (s.thread t).phase ≠ .acquired ∧ s.word l = true

end LockState

variable {τ ℓ ι : Type} [DecidableEq τ] [DecidableEq ℓ]

/-- One step of a thread, where `owned` are the locks with an owner and `choice` decides a branch. A failed
assertion has no result. -/
def lockStep (owned : ℓ → Bool) (s : LockState τ ℓ) (t : τ) (choice : Bool) : Option (LockState τ ℓ) :=
  let x := s.thread t
  match x.code, x.phase with
  | .lock l next, .ready =>
      if s.word l then some (s.setThread t { x with phase := .spinning })
      else if owned l then some ((s.setWord l true).setThread t { x with phase := .acquired })
      else some ((s.setWord l true).setThread t { x with code := next })
  | .lock l _, .spinning => if s.word l then some s else some (s.setThread t { x with phase := .ready })
  | .lock l next, .acquired =>
      if s.owner l = none then
        some ((s.setOwner l (some t)).setThread t { x with code := next, phase := .ready })
      else none
  | .tryLock l taken missed, .ready =>
      if s.word l then some (s.setThread t { x with code := missed })
      else if owned l then some ((s.setWord l true).setThread t { x with phase := .acquired })
      else some ((s.setWord l true).setThread t { x with code := taken })
  | .tryLock l taken _, .acquired =>
      if s.owner l = none then
        some ((s.setOwner l (some t)).setThread t { x with code := taken, phase := .ready })
      else none
  | .unlock l next, .ready =>
      if owned l then
        if s.owner l = some t then
          some ((s.setOwner l none).setThread t { x with phase := .releasing })
        else none
      else some ((s.setWord l false).setThread t { x with code := next })
  | .unlock l next, .releasing =>
    some ((s.setWord l false).setThread t { x with code := next, phase := .ready })
  | .setFlag next, .ready => if x.flag then none else some (s.setThread t { x with flag := true, code := next })
  | .clearFlag next, .ready =>
      if x.flag then some (s.setThread t { x with flag := false, code := next }) else none
  | .readOwner l mine next, .ready =>
      if decide (s.owner l = some t) = mine then some (s.setThread t { x with code := next }) else none
  | .branch left right, .ready => some (s.setThread t { x with code := if choice then left else right })
  | _, _ => none

/-- The steps. -/
inductive LockLabel (τ ι : Type) where
  /-- A thread that has come to its end begins another piece of code. -/
  | begin (t : τ) (call : ι)
  | step (t : τ) (choice : Bool)
deriving DecidableEq, Repr

/-- All locks are free, and no thread has anything to do. -/
structure LockState.Quiet (owned : ℓ → Bool) (s : LockState τ ℓ) : Prop where
  word : ∀ l, s.word l = false
  owner : ∀ l, owned l = true → s.owner l = none
  thread : ∀ t, s.thread t = ⟨false, .done, .ready⟩

/-- Threads that run pieces of code, one after the other. -/
def lockMachine (owned : ℓ → Bool) (codeOf : τ → ι → LockCode ℓ) :
    Machine (LockState τ ℓ) (LockLabel τ ι) where
  start := LockState.Quiet owned
  step s
    | .begin t call =>
        if (s.thread t).code = .done then
          some (s.setThread t { s.thread t with code := codeOf t call })
        else none
    | .step t choice => lockStep owned s t choice

end CilkL
