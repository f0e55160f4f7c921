/-
Module: CilkL.Runtime.Future
Layer: Runtime
Purpose: `cilk::future<T>` of `future.h` with the parts of `deque.c` and `deque_pool.c` that `get` and
  `put` call, as a machine over any set of futures and deques. A deque carries at most one running
  strand, so a getter is named by its active deque; a strand that was woken runs on and may get again.
  Each label is one atomic step: the ready test, the fetch_add of the ticket, the three accesses of
  `__cilkrts_insert_deque_into_list`, the suspension; the store of `m_result`, the fetch_add of
  `INT32_MIN`, one read of `node->next`, one `__cilkrts_make_resumable`. `future<void>` is the case
  `T = Unit`, where the store of the result is no step of the code. The state also carries the history
  the properties speak about.
Imports: CilkL.Library.Machine, Mathlib
Trusted boundary: human-reviewed spec (translated from future.h, deque.c and deque_pool.c)
Main exports: LinkNode, GetStage, GetterPc, PutPc, FutureState, FutureLabel, futureStep, futureMachine
Open obligations: none
-/
import CilkL.Library.Machine
import Mathlib

namespace CilkL

/-- The value of an `int` after an addition wrapped around. -/
def wrapInt (x : Int) : Int := (x + 2 ^ 31) % 2 ^ 32 - 2 ^ 31

/-- `INT32_MIN`. -/
def int32Min : Int := -2 ^ 31

/-- A `__cilkrts_deque_link`: the `head` of a future or the `link` of a deque. -/
inductive LinkNode (φ δ : Type) where
  | head (f : φ)
  | link (d : δ)
deriving DecidableEq, Repr

/-- The field `d` of a link; `NULL` in the head of a future. -/
def LinkNode.d {φ δ : Type} : LinkNode φ δ → Option δ
  | .head _ => none
  | .link d => some d

/-- Where a strand is inside `get`. -/
inductive GetStage (φ δ : Type) where
  /-- The future tested not ready; about to fetch_add the ticket. -/
  | fetchAdd
  /-- About to execute `d->link.next = NULL`. -/
  | resetLink
  /-- About to exchange the future's `tail`. -/
  | exchangeTail
  /-- About to execute `old_tail->next = &(d->link)`. -/
  | storeNext (oldTail : LinkNode φ δ)
  /-- About to suspend in `__cilkrts_suspend_deque`. -/
  | suspend
  /-- Suspended: the deque's fiber is set and resumable. -/
  | suspended
  /-- Made resumable and not run yet. -/
  | resumable
  /-- About to evaluate `assert(ready())`. -/
  | assertReady
  /-- About to read `m_result`. -/
  | load
  /-- The assertion failed. -/
  | failed
deriving DecidableEq, Repr

/-- What the strand on a deque is doing. -/
inductive GetterPc (φ δ : Type) where
  /-- Running outside `get`. -/
  | running
  /-- Inside `get` of a future. -/
  | get (f : φ) (stage : GetStage φ δ)
deriving DecidableEq, Repr

/-- Where `put` of a future is. -/
inductive PutPc (φ δ : Type) where
  /-- `put` has not been called. -/
  | idle
  /-- About to fetch_add `INT32_MIN`. -/
  | fetchAdd
  /-- At `while (!node->next)` before the loop; `node` is the head. -/
  | first (numDeques : Int)
  /-- At `while (num_deques)` with the locals `node`, `num_deques` and `ret`. -/
  | walk (node : LinkNode φ δ) (numDeques : Int) (ret : Option δ)
  /-- In `__cilkrts_make_resumable(node->d)`. -/
  | wake (node : LinkNode φ δ) (numDeques : Int) (ret : Option δ)
  /-- Returned `ret`. -/
  | returned (ret : Option δ)
  /-- The caller has resumed the deque that `put` returned. -/
  | resumed
deriving DecidableEq, Repr

/-- `put` has executed its fetch_add. -/
def PutPc.fetched {φ δ : Type} : PutPc φ δ → Bool
  | .idle | .fetchAdd => false
  | _ => true

/-- One fetch_add of a getter: the deque it ran on, the old value, and whether it came after put's. -/
structure Draw (δ : Type) where
  deque : δ
  ticket : Int
  afterPut : Bool
deriving DecidableEq, Repr

/-- One return from `get`: the value read and whether it came after put's fetch_add. -/
structure Got (T : Type) where
  value : Option T
  afterPut : Bool
deriving DecidableEq, Repr

/-- The futures, the links of the deques, all strands and the history of the run. -/
structure FutureState (φ δ T : Type) where
  /-- `m_num_suspended_deques` of each future. -/
  mNumSuspendedDeques : φ → Int
  /-- `m_result` of each future; `none` while it is not initialised. -/
  mResult : φ → Option T
  /-- `tail` of each future. -/
  tail : φ → LinkNode φ δ
  /-- `next` of each link. -/
  next : LinkNode φ δ → Option (LinkNode φ δ)
  getter : δ → GetterPc φ δ
  put : φ → PutPc φ δ
  /-- The tickets drawn on each future, oldest first. -/
  draws : φ → List (Draw δ)
  /-- The deques whose link was exchanged into each future's tail, oldest first. -/
  linked : φ → List δ
  /-- The deques `put` returns or passes to `__cilkrts_make_resumable`, in the order of its walk. -/
  visited : φ → List δ
  /-- The value `num_deques` the fetch_add of `put` read. -/
  numDeques : φ → Option Int
  /-- The returns from `get` of each future, oldest first. -/
  gets : φ → List (Got T)

/-- Freshly constructed futures and running strands. -/
def FutureState.initial (φ δ T : Type) : FutureState φ δ T :=
  { mNumSuspendedDeques := fun _ => 0, mResult := fun _ => none, tail := .head, next := fun _ => none
    getter := fun _ => .running, put := fun _ => .idle, draws := fun _ => [], linked := fun _ => []
    visited := fun _ => [], numDeques := fun _ => none, gets := fun _ => [] }

/-- The atomic steps of getters (`get..`, by deque) and of putters (`put..`, by future). -/
inductive FutureLabel (φ δ T : Type) where
  /-- `get` is called and tests `ready()`. -/
  | getTest (d : δ) (f : φ)
  | getFetchAdd (d : δ)
  | getResetLink (d : δ)
  | getExchangeTail (d : δ)
  | getStoreNext (d : δ)
  | getSuspend (d : δ)
  /-- A worker runs a deque that was made resumable. -/
  | getRun (d : δ)
  | getAssert (d : δ)
  | getLoad (d : δ)
  /-- `put` is called with a result and stores it. -/
  | putStore (f : φ) (result : T)
  | putFetchAdd (f : φ)
  /-- One evaluation of a loop test of `put`, with the read of `node->next` where it makes one. -/
  | putRead (f : φ)
  /-- `__cilkrts_make_resumable` has seen the deque fully suspended and makes it resumable. -/
  | putWake (f : φ)
  /-- The caller of `put` resumes the deque it returned. -/
  | putResume (f : φ)
deriving DecidableEq, Repr

variable {φ δ T : Type} [DecidableEq φ] [DecidableEq δ]

/-- Replace the value of a function at one argument. -/
def setAt {α β : Type} [DecidableEq α] (g : α → β) (a : α) (b : β) : α → β :=
  fun x => if x = a then b else g x

@[simp] theorem setAt_self {α β : Type} [DecidableEq α] (g : α → β) (a : α) (b : β) :
    setAt g a b a = b := by
  simp [setAt]

theorem setAt_other {α β : Type} [DecidableEq α] {a x : α} (other : x ≠ a) (g : α → β) (b : β) :
    setAt g a b x = g x := by
  simp [setAt, other]

/-- A store of the value that is there changes nothing. -/
theorem setAt_same {α β : Type} [DecidableEq α] (g : α → β) (a : α) : setAt g a (g a) = g := by
  funext x
  by_cases isA : x = a
  · rw [isA, setAt_self]
  · exact setAt_other isA g (g a)

/-- The last of two stores counts. -/
theorem setAt_twice {α β : Type} [DecidableEq α] (g : α → β) (a : α) (first second : β) :
    setAt (setAt g a first) a second = setAt g a second := by
  funext x
  simp only [setAt]
  split <;> rfl

/-- What holds of all values holds after a store of such a value. -/
theorem forall_setAt {α β : Type} [DecidableEq α] {P : β → Prop} {g : α → β} {a : α} {b : β}
    (all : ∀ x, P (g x)) (new : P b) (x : α) : P (setAt g a b x) := by
  by_cases isA : x = a
  · rw [isA, setAt_self]
    exact new
  · rw [setAt_other isA]
    exact all x

/-- Make a suspended deque resumable; `none` while it is not fully suspended. -/
def makeResumable (s : FutureState φ δ T) (d : Option δ) : Option (FutureState φ δ T) :=
  match d with
  | none => none
  | some d =>
      match s.getter d with
      | .get f .suspended => some { s with getter := setAt s.getter d (.get f .resumable) }
      | _ => none

/-- One atomic step. -/
def futureStep (s : FutureState φ δ T) : FutureLabel φ δ T → Option (FutureState φ δ T)
  | .getTest d f =>
      match s.getter d with
      | .running =>
          let stage := if s.mNumSuspendedDeques f < 0 then .assertReady else .fetchAdd
          some { s with getter := setAt s.getter d (.get f stage) }
      | _ => none
  | .getFetchAdd d =>
      match s.getter d with
      | .get f .fetchAdd =>
          let ticket := s.mNumSuspendedDeques f
          let stage := if 0 ≤ ticket then .resetLink else .assertReady
          some { s with
            mNumSuspendedDeques := setAt s.mNumSuspendedDeques f (wrapInt (ticket + 1))
            getter := setAt s.getter d (.get f stage)
            draws := setAt s.draws f (s.draws f ++ [⟨d, ticket, (s.put f).fetched⟩]) }
      | _ => none
  | .getResetLink d =>
      match s.getter d with
      | .get f .resetLink =>
          some { s with
            next := setAt s.next (.link d) none
            getter := setAt s.getter d (.get f .exchangeTail) }
      | _ => none
  | .getExchangeTail d =>
      match s.getter d with
      | .get f .exchangeTail =>
          some { s with
            tail := setAt s.tail f (.link d)
            getter := setAt s.getter d (.get f (.storeNext (s.tail f)))
            linked := setAt s.linked f (s.linked f ++ [d]) }
      | _ => none
  | .getStoreNext d =>
      match s.getter d with
      | .get f (.storeNext oldTail) =>
          some { s with
            next := setAt s.next oldTail (some (.link d))
            getter := setAt s.getter d (.get f .suspend) }
      | _ => none
  | .getSuspend d =>
      match s.getter d with
      | .get f .suspend => some { s with getter := setAt s.getter d (.get f .suspended) }
      | _ => none
  | .getRun d =>
      match s.getter d with
      | .get f .resumable => some { s with getter := setAt s.getter d (.get f .assertReady) }
      | _ => none
  | .getAssert d =>
      match s.getter d with
      | .get f .assertReady =>
          let stage := if s.mNumSuspendedDeques f < 0 then .load else .failed
          some { s with getter := setAt s.getter d (.get f stage) }
      | _ => none
  | .getLoad d =>
      match s.getter d with
      | .get f .load =>
          some { s with
            getter := setAt s.getter d .running
            gets := setAt s.gets f (s.gets f ++ [⟨s.mResult f, (s.put f).fetched⟩]) }
      | _ => none
  | .putStore f result =>
      match s.put f with
      | .idle =>
          some { s with
            mResult := setAt s.mResult f (some result)
            put := setAt s.put f .fetchAdd }
      | _ => none
  | .putFetchAdd f =>
      match s.put f with
      | .fetchAdd =>
          let numDeques := s.mNumSuspendedDeques f
          let pc := if 0 < numDeques then .first numDeques else .returned none
          some { s with
            mNumSuspendedDeques := setAt s.mNumSuspendedDeques f (wrapInt (numDeques + int32Min))
            put := setAt s.put f pc
            numDeques := setAt s.numDeques f (some numDeques) }
      | _ => none
  | .putRead f =>
      match s.put f with
      | .first numDeques =>
          match s.next (.head f) with
          | none => some s
          | some node =>
              some { s with
                put := setAt s.put f (.walk node (numDeques - 1) node.d)
                visited := setAt s.visited f (s.visited f ++ node.d.toList) }
      | .walk node numDeques ret =>
          if numDeques = 0 then some { s with put := setAt s.put f (.returned ret) }
          else
            match s.next node with
            | none => some s
            | some node =>
                some { s with
                  put := setAt s.put f (.wake node (numDeques - 1) ret)
                  visited := setAt s.visited f (s.visited f ++ node.d.toList) }
      | _ => none
  | .putWake f =>
      match s.put f with
      | .wake node numDeques ret =>
          makeResumable { s with put := setAt s.put f (.walk node numDeques ret) } node.d
      | _ => none
  | .putResume f =>
      match s.put f with
      | .returned (some d) =>
          makeResumable { s with put := setAt s.put f .resumed } (some d)
      | _ => none

variable (φ δ T) in
/-- Any number of futures with their getters and their puts. -/
def futureMachine : Machine (FutureState φ δ T) (FutureLabel φ δ T) where
  start s := s = .initial φ δ T
  step := futureStep

end CilkL
