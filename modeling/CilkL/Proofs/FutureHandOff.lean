/-
Module: CilkL.Proofs.FutureHandOff
Layer: Proofs
Purpose: The direct hand-off loses no continuation as long as every getter draws its ticket after the
  spawn of the future, and not while the continuation of that spawn is in another deque: then a future
  with a waiter has lost its parent to a thief before it puts its result. A getter that knows the future
  before it is spawned breaks this, and the active deque is destroyed with its parent in it.
Imports: CilkL.Runtime.FutureHandOff
Trusted boundary: none (fully proved)
Main exports: LinkedFuture, HandOffInv, HandOffInv.of_step, hand_off_loses_nothing
Open obligations: none
-/
import CilkL.Runtime.FutureHandOff

namespace CilkL

variable {φ δ : Type} [DecidableEq φ] [DecidableEq δ]

/-! ### The head of a deque -/

/-- A deque without a head holds no continuation. -/
theorem splitHead_none {callers : List (CallLink φ)} (none : splitHead callers = none) :
    ∀ link ∈ callers, link = .called := by
  induction callers with
  | nil => simp
  | cons link callers ih =>
      simp only [splitHead] at none
      cases tail : splitHead callers with
      | some found => simp [tail] at none
      | none =>
          simp only [tail, ite_eq_left_iff, reduceCtorEq, imp_false, Decidable.not_not] at none
          exact List.forall_mem_cons.2 ⟨none, ih tail⟩

/-- What the thief takes, and that the functions below it were called. -/
theorem splitHead_spec {callers younger older : List (CallLink φ)} {head : CallLink φ}
    (split : splitHead callers = some (younger, head, older)) :
    callers = younger ++ head :: older ∧ ∀ link ∈ older, link = .called := by
  induction callers generalizing younger with
  | nil => simp [splitHead] at split
  | cons link callers ih =>
      simp only [splitHead] at split
      cases tail : splitHead callers with
      | some found =>
          rw [tail] at split
          obtain ⟨younger', head', older'⟩ := found
          simp only [Option.some.injEq, Prod.mk.injEq] at split
          obtain ⟨rfl, rfl, rfl⟩ := split
          obtain ⟨callersEq, rest⟩ := ih tail
          exact ⟨by rw [callersEq]; rfl, rest⟩
      | none =>
          rw [tail] at split
          simp only [Option.ite_none_left_eq_some, Option.some.injEq, Prod.mk.injEq] at split
          obtain ⟨-, rfl, rfl, rfl⟩ := split
          exact ⟨rfl, splitHead_none tail⟩

/-! ### The invariant -/

/-- A future whose parent has not been stolen, `d` being the deque with the parent's continuation:
    either nobody waits for it, or the strand on `d` itself does. -/
def LinkedFuture (s : HandOffState φ δ) (d : δ) (f : φ) : Prop :=
  (s.put f = .idle ∧ (s.mNumSuspendedDeques f = 0 ∨ s.pc d = .drawn f ∨ s.pc d = .inserted f ∨
      s.pc d = .waiting f)) ∨
    (s.pc d = .putting f ∧
      ((s.put f = .stored ∧ s.mNumSuspendedDeques f = 0) ∨ s.put f = .returned none))

/-- What holds in every state of a guarded run. -/
structure HandOffInv (s : HandOffState φ δ) : Prop where
  unspawned : ∀ f, s.spawned f = false → (∀ d, .future f ∉ s.callers d) ∧ (∀ d, s.bottom d ≠ some f) ∧
    s.put f = .idle ∧ s.mNumSuspendedDeques f = 0
  unique : ∀ f d d', .future f ∈ s.callers d → .future f ∈ s.callers d' → d = d'
  once : ∀ f d, (s.callers d).count (.future f) ≤ 1
  stolen : ∀ f d, s.bottom d = some f → ∀ d', .future f ∉ s.callers d'
  linked : ∀ f d, .future f ∈ s.callers d → LinkedFuture s d f
  putting : ∀ f d, s.pc d = .putting f → s.helper d = some f ∧ s.put f ≠ .idle
  waiters : ∀ f d, d ∈ s.waiters f → s.pc d = .inserted f ∨ s.pc d = .waiting f
  nodup : ∀ f, (s.waiters f).Nodup
  ret : ∀ f n w, s.put f = .walk n (some w) ∨ s.put f = .returned (some w) →
    (s.waiters f).head? = some w
  unused : ∀ d, s.pc d = .unused → s.callers d = [] ∧ s.bottom d = none
  failures : s.failures = []

omit [DecidableEq δ] in
theorem HandOffInv.of_start {s : HandOffState φ δ} (initial : s.Initial) : HandOffInv s := by
  obtain ⟨futures, deques, failures⟩ := initial
  constructor <;> grind -linarith

omit [DecidableEq φ] [DecidableEq δ] in
/-- The running function is the future's helper: its parent is in the deque, or was stolen. -/
theorem helper_spec {s : HandOffState φ δ} {d : δ} {f : φ} (helper : s.helper d = some f) :
    (s.callers d = [] ∧ s.bottom d = some f) ∨ ∃ callers, s.callers d = .future f :: callers := by
  unfold HandOffState.helper at helper
  cases callersEq : s.callers d with
  | nil =>
      rw [callersEq] at helper
      exact .inl ⟨rfl, helper⟩
  | cons link callers =>
      rw [callersEq] at helper
      cases link <;> simp [CallLink.future?] at helper
      exact .inr ⟨callers, by rw [helper]⟩

/-! ### Steps of the call stacks -/

theorem HandOffInv.of_call {s : HandOffState φ δ} (inv : HandOffInv s) {d : δ} {link : CallLink φ}
    (running : s.pc d = .running) (plain : link = .called ∨ link = .spawned) :
    HandOffInv (s.setCallers d (link :: s.callers d)) := by
  obtain ⟨unspawned, unique, once, stolen, linked, putting, waiters, nodup, ret, unused,
    failures⟩ := inv
  constructor
  · grind -linarith [setAt]
  · grind -linarith [setAt]
  · grind -linarith [setAt]
  · grind -linarith [setAt]
  · grind -linarith [setAt, LinkedFuture]
  · grind -linarith [setAt, HandOffState.helper]
  · exact waiters
  · exact nodup
  · exact ret
  · grind -linarith [setAt]
  · exact failures

theorem HandOffInv.of_spawnFuture {s : HandOffState φ δ} (inv : HandOffInv s) {d : δ} {f : φ}
    (running : s.pc d = .running) (unspawned : s.spawned f = false) :
    HandOffInv { s.setCallers d (.future f :: s.callers d) with spawned := setAt s.spawned f true } := by
  obtain ⟨unlinked, noBottom, idle, noTicket⟩ := inv.unspawned f unspawned
  obtain ⟨unspawned, unique, once, stolen, linked, putting, waiters, nodup, ret, unused,
    failures⟩ := inv
  have notLinked : ∀ d, (s.callers d).count (.future f) = 0 :=
    fun d => List.count_eq_zero.2 (unlinked d)
  constructor
  · grind -linarith [setAt]
  · grind -linarith [setAt]
  · grind -linarith [setAt]
  · grind -linarith [setAt]
  · grind -linarith [setAt, LinkedFuture]
  · grind -linarith [setAt, HandOffState.helper]
  · exact waiters
  · exact nodup
  · exact ret
  · grind -linarith [setAt]
  · exact failures

theorem HandOffInv.of_leave {s : HandOffState φ δ} (inv : HandOffInv s) {d : δ} {link : CallLink φ}
    {callers : List (CallLink φ)} (running : s.pc d = .running) (callersEq : s.callers d = link :: callers) :
    HandOffInv (s.setCallers d callers) := by
  obtain ⟨unspawned, unique, once, stolen, linked, putting, waiters, nodup, ret, unused,
    failures⟩ := inv
  have fewer : ∀ f, callers.count (.future f) ≤ 1 := by
    intro f
    have before := once f d
    rw [callersEq] at before
    exact Nat.le_trans (List.Sublist.count_le _ (List.sublist_cons_self link callers)) before
  constructor
  · grind -linarith [setAt]
  · grind -linarith [setAt]
  · grind -linarith [setAt]
  · grind -linarith [setAt]
  · grind -linarith [setAt, LinkedFuture]
  · grind -linarith [setAt, HandOffState.helper]
  · exact waiters
  · exact nodup
  · exact ret
  · grind -linarith [setAt]
  · exact failures

/-- A strand that ends, or goes on outside `get` and `put`. -/
theorem HandOffInv.of_running {s : HandOffState φ δ} (inv : HandOffInv s) {d : δ} {pc : StrandPc φ}
    (before : s.pc d = .running ∨ ∃ f, s.pc d = .resumable f ∨ s.pc d = .drawing f)
    (after : pc = .running ∨ pc = .over ∨ ∃ f, pc = .drawing f) : HandOffInv (s.setPc d pc) := by
  obtain ⟨unspawned, unique, once, stolen, linked, putting, waiters, nodup, ret, unused,
    failures⟩ := inv
  constructor
  · exact unspawned
  · exact unique
  · exact once
  · exact stolen
  · grind -linarith [setAt, LinkedFuture]
  · grind -linarith [setAt, HandOffState.helper]
  · grind -linarith [setAt]
  · exact nodup
  · exact ret
  · grind -linarith [setAt]
  · exact failures

/-- A thief takes the head of a deque. -/
theorem HandOffInv.of_steal {s : HandOffState φ δ} (inv : HandOffInv s) {d e : δ}
    {younger older : List (CallLink φ)} {head : CallLink φ} (inUse : s.pc d ≠ .unused)
    (unusedE : s.pc e = .unused) (split : splitHead (s.callers d) = some (younger, head, older)) :
    HandOffInv { s with
      pc := setAt s.pc e .running
      callers := setAt (setAt s.callers d younger) e older
      bottom := setAt (setAt s.bottom d head.future?) e (s.bottom d) } := by
  obtain ⟨callersEq, called⟩ := splitHead_spec split
  have notOlder : ∀ f, .future f ∉ older := fun f member => by simpa using called _ member
  have distinct : d ≠ e := by
    rintro rfl
    exact inUse unusedE
  obtain ⟨unspawned, unique, once, stolen, linked, putting, waiters, nodup, ret, unused,
    failures⟩ := inv
  have younger_sub : ∀ f, .future f ∈ younger → .future f ∈ s.callers d := by
    intro f member
    rw [callersEq]
    exact List.mem_append_left _ member
  have taken : ∀ f, head.future? = some f → .future f ∈ s.callers d ∧ .future f ∉ younger := by
    intro f isFuture
    have headEq : head = .future f := by
      cases head <;> simp [CallLink.future?] at isFuture
      rw [isFuture]
    have single := once f d
    rw [callersEq, headEq, List.count_append, List.count_cons_self] at single
    exact ⟨by simp [callersEq, headEq], List.count_eq_zero.1 (by omega)⟩
  have fewer : ∀ f, younger.count (.future f) ≤ 1 := by
    intro f
    have before := once f d
    rw [callersEq, List.count_append] at before
    omega
  constructor
  · grind -linarith [setAt]
  · grind -linarith [setAt]
  · grind -linarith [setAt]
  · grind -linarith [setAt]
  · grind -linarith [setAt, LinkedFuture]
  · intro f d' isPutting
    by_cases isE : d' = e
    · simp [isE] at isPutting
    · simp only [setAt_other isE] at isPutting
      obtain ⟨helper, notIdle⟩ := putting f d' isPutting
      refine ⟨?_, notIdle⟩
      by_cases isD : d' = d
      · subst isD
        simp only [HandOffState.helper, setAt_other isE, setAt_self, callersEq] at helper ⊢
        cases younger with
        | nil => exact helper
        | cons link younger => exact helper
      · simpa only [HandOffState.helper, setAt_other isE, setAt_other isD] using helper
  · grind -linarith [setAt]
  · exact nodup
  · exact ret
  · grind -linarith [setAt]
  · exact failures

/-! ### Steps of `get` -/

/-- The first waiter of a future whose parent is in a deque is the strand on that deque. -/
theorem HandOffInv.of_getFetchAdd {s : HandOffState φ δ} (inv : HandOffInv s) {d : δ} {f : φ}
    (drawing : s.pc d = .drawing f) (spawned : s.spawned f = true)
    (elsewhere : ∀ e, e ≠ d → .future f ∉ s.callers e) : HandOffInv (s.fetchAddTicket d f) := by
  obtain ⟨unspawned, unique, once, stolen, linked, putting, waiters, nodup, ret, unused,
    failures⟩ := inv
  have ownFuture : .future f ∈ s.callers d → s.mNumSuspendedDeques f = 0 ∧ s.put f = .idle := by
    intro member
    have before := linked f d member
    grind -linarith [LinkedFuture]
  unfold HandOffState.fetchAddTicket
  dsimp only
  constructor
  · grind -linarith [setAt]
  · exact unique
  · exact once
  · exact stolen
  · grind -linarith [setAt, LinkedFuture]
  · grind -linarith [setAt, HandOffState.helper]
  · grind -linarith [setAt]
  · exact nodup
  · exact ret
  · grind -linarith [setAt]
  · exact failures

theorem HandOffInv.of_getInsert {s : HandOffState φ δ} (inv : HandOffInv s) {d : δ} {f : φ}
    (drawn : s.pc d = .drawn f) :
    HandOffInv { s.setPc d (.inserted f) with waiters := setAt s.waiters f (s.waiters f ++ [d]) } := by
  obtain ⟨unspawned, unique, once, stolen, linked, putting, waiters, nodup, ret, unused,
    failures⟩ := inv
  constructor
  · exact unspawned
  · exact unique
  · exact once
  · exact stolen
  · grind -linarith [setAt, LinkedFuture]
  · grind -linarith [setAt, HandOffState.helper]
  · grind -linarith [setAt]
  · grind -linarith [setAt]
  · grind -linarith [setAt]
  · grind -linarith [setAt]
  · exact failures

theorem HandOffInv.of_getSuspend {s : HandOffState φ δ} (inv : HandOffInv s) {d : δ} {f : φ}
    (inserted : s.pc d = .inserted f) : HandOffInv (s.setPc d (.waiting f)) := by
  obtain ⟨unspawned, unique, once, stolen, linked, putting, waiters, nodup, ret, unused,
    failures⟩ := inv
  constructor
  · exact unspawned
  · exact unique
  · exact once
  · exact stolen
  · grind -linarith [setAt, LinkedFuture]
  · grind -linarith [setAt, HandOffState.helper]
  · grind -linarith [setAt]
  · exact nodup
  · exact ret
  · grind -linarith [setAt]
  · exact failures

/-! ### Steps of `put` -/

omit [DecidableEq δ] in
/-- The deque of a helper that has something to hand off is empty. -/
theorem HandOffInv.callers_of_returned {s : HandOffState φ δ} (inv : HandOffInv s) {d w : δ} {f : φ}
    (putting : s.pc d = .putting f) (returned : s.put f = .returned (some w)) : s.callers d = [] := by
  rcases helper_spec (inv.putting f d putting).1 with ⟨empty, -⟩ | ⟨callers, callersEq⟩
  · exact empty
  · have linked := inv.linked f d (by simp [callersEq])
    simp [LinkedFuture, returned] at linked

theorem HandOffInv.of_put {s : HandOffState φ δ} (inv : HandOffInv s) {d : δ} {f : φ}
    (helper : s.helper d = some f) (running : s.pc d = .running) :
    HandOffInv ((s.setPc d (.putting f)).setPut f .stored) := by
  have own : s.spawned f = true ∧ ∀ d', .future f ∈ s.callers d' → d' = d := by
    rcases helper_spec helper with ⟨-, bottom⟩ | ⟨callers, callersEq⟩
    · refine ⟨?_, fun d' member => absurd member (inv.stolen f d bottom d')⟩
      cases spawned : s.spawned f with
      | true => rfl
      | false => exact absurd bottom ((inv.unspawned f spawned).2.1 d)
    · have member : .future f ∈ s.callers d := by simp [callersEq]
      refine ⟨?_, fun d' linked => inv.unique f d' d linked member⟩
      cases spawned : s.spawned f with
      | true => rfl
      | false => exact absurd member ((inv.unspawned f spawned).1 d)
  obtain ⟨unspawned, unique, once, stolen, linked, putting, waiters, nodup, ret, unused,
    failures⟩ := inv
  constructor
  · grind -linarith [setAt]
  · exact unique
  · exact once
  · exact stolen
  · grind -linarith [setAt, LinkedFuture]
  · grind -linarith [setAt, HandOffState.helper]
  · grind -linarith [setAt]
  · grind -linarith [setAt]
  · grind -linarith [setAt]
  · grind -linarith [setAt]
  · exact failures

omit [DecidableEq δ] in
theorem HandOffInv.of_putFetchAdd {s : HandOffState φ δ} (inv : HandOffInv s) {d : δ} {f : φ}
    (isPutting : s.pc d = .putting f) (stored : s.put f = .stored) : HandOffInv (s.fetchAddPut f) := by
  obtain ⟨unspawned, unique, once, stolen, linked, putting, waiters, nodup, ret, unused,
    failures⟩ := inv
  unfold HandOffState.fetchAddPut
  dsimp only
  constructor
  · grind -linarith [setAt]
  · exact unique
  · exact once
  · exact stolen
  · grind -linarith [setAt, LinkedFuture]
  · grind -linarith [setAt, HandOffState.helper]
  · exact waiters
  · exact nodup
  · grind -linarith [setAt]
  · exact unused
  · exact failures

omit [DecidableEq δ] in
/-- The first deque of the list is kept for the caller. -/
theorem HandOffInv.of_first {s : HandOffState φ δ} (inv : HandOffInv s) {f : φ} {n : Int} {w : δ}
    {rest : List δ} (walk : s.put f = .walk n none)
    (waitersEq : s.waiters f = w :: rest) : HandOffInv (s.setPut f (.walk (n - 1) (some w))) := by
  obtain ⟨unspawned, unique, once, stolen, linked, putting, waiters, nodup, ret, unused,
    failures⟩ := inv
  constructor
  · grind -linarith [setAt]
  · exact unique
  · exact once
  · exact stolen
  · grind -linarith [setAt, LinkedFuture]
  · grind -linarith [setAt, HandOffState.helper]
  · exact waiters
  · exact nodup
  · grind -linarith [setAt]
  · exact unused
  · exact failures

omit [DecidableEq δ] in
theorem HandOffInv.of_walkEnd {s : HandOffState φ δ} (inv : HandOffInv s) {f : φ} {n : Int} {w : δ}
    (walk : s.put f = .walk n (some w)) :
    HandOffInv (s.setPut f (.returned (some w))) := by
  obtain ⟨unspawned, unique, once, stolen, linked, putting, waiters, nodup, ret, unused,
    failures⟩ := inv
  constructor
  · grind -linarith [setAt]
  · exact unique
  · exact once
  · exact stolen
  · grind -linarith [setAt, LinkedFuture]
  · grind -linarith [setAt, HandOffState.helper]
  · exact waiters
  · exact nodup
  · grind -linarith [setAt]
  · exact unused
  · exact failures

theorem HandOffInv.of_wake {s : HandOffState φ δ} (inv : HandOffInv s) {f g : φ} {n : Int}
    {ret first w : δ} {rest : List δ} (walk : s.put f = .walk n (some ret))
    (waitersEq : s.waiters f = first :: w :: rest) (waiting : s.pc w = .waiting g) :
    HandOffInv (({ s with waiters := setAt s.waiters f (first :: rest) }.setPc w (.resumable g)).setPut f
      (.walk (n - 1) (some ret))) := by
  have waits : s.pc w = .inserted f ∨ s.pc w = .waiting f := inv.waiters f w (by simp [waitersEq])
  have single := inv.nodup f
  have notLinked : ∀ d, .future f ∉ s.callers d := by
    intro d member
    have linked := inv.linked f d member
    simp [LinkedFuture, walk] at linked
  obtain ⟨unspawned, unique, once, stolen, linked, putting, waiters, nodup, ret, unused,
    failures⟩ := inv
  constructor
  · grind -linarith [setAt]
  · exact unique
  · exact once
  · exact stolen
  · grind -linarith [setAt, LinkedFuture]
  · grind -linarith [setAt, HandOffState.helper]
  · grind -linarith [setAt]
  · grind -linarith [setAt]
  · grind -linarith [setAt]
  · grind -linarith [setAt]
  · exact failures

/-- The active deque is destroyed empty, and the first waiter runs on. -/
theorem HandOffInv.of_handOff {s : HandOffState φ δ} (inv : HandOffInv s) {d w : δ} {f g : φ}
    (isPutting : s.pc d = .putting f) (returned : s.put f = .returned (some w))
    (waiting : s.pc w = .waiting g) :
    HandOffInv ((({ s with waiters := setAt s.waiters f (s.waiters f).tail }.dequeDestroy d).setPc w
      .running).setPut f .handed) := by
  have empty := inv.callers_of_returned isPutting returned
  have first := inv.ret f 0 w (.inr returned)
  have waits : s.pc w = .inserted f ∨ s.pc w = .waiting f :=
    inv.waiters f w (List.mem_of_head? first)
  have single := inv.nodup f
  have notLinked : ∀ d, .future f ∉ s.callers d := by
    intro d member
    have linked := inv.linked f d member
    simp [LinkedFuture, returned] at linked
  obtain ⟨unspawned, unique, once, stolen, linked, putting, waiters, nodup, ret, unused,
    failures⟩ := inv
  obtain ⟨rest, waitersEq⟩ : ∃ rest, s.waiters f = w :: rest := by
    cases listEq : s.waiters f with
    | nil => simp [listEq] at first
    | cons head rest =>
        simp only [listEq, List.head?_cons, Option.some.injEq] at first
        exact ⟨rest, by rw [first]⟩
  unfold HandOffState.dequeDestroy
  dsimp only
  constructor
  · grind -linarith [setAt]
  · exact unique
  · exact once
  · exact stolen
  · grind -linarith [setAt, LinkedFuture]
  · grind -linarith [setAt, HandOffState.helper]
  · grind -linarith [setAt]
  · grind -linarith [setAt]
  · grind -linarith [setAt]
  · grind -linarith [setAt]
  · simp [empty, ltq, failures]

theorem HandOffInv.of_helperReturn {s : HandOffState φ δ} (inv : HandOffInv s) {d : δ} {f : φ}
    {link : CallLink φ} {callers : List (CallLink φ)} (isPutting : s.pc d = .putting f)
    (callersEq : s.callers d = link :: callers) :
    HandOffInv ((s.setPc d .running).setCallers d callers) := by
  have own : link = .future f := by
    rcases helper_spec (inv.putting f d isPutting).1 with ⟨empty, -⟩ | ⟨callers', callersEq'⟩
    · simp [callersEq] at empty
    · rw [callersEq, List.cons.injEq] at callersEq'
      exact callersEq'.1
  subst own
  have fewer : ∀ g, callers.count (.future g) ≤ 1 := by
    intro g
    have before := inv.once g d
    rw [callersEq] at before
    exact Nat.le_trans (List.Sublist.count_le _ (List.sublist_cons_self _ callers)) before
  have last : .future f ∉ callers := by
    have before := inv.once f d
    rw [callersEq, List.count_cons_self] at before
    exact List.count_eq_zero.1 (by omega)
  obtain ⟨unspawned, unique, once, stolen, linked, putting, waiters, nodup, ret, unused,
    failures⟩ := inv
  constructor
  · grind -linarith [setAt]
  · grind -linarith [setAt]
  · grind -linarith [setAt]
  · grind -linarith [setAt]
  · grind -linarith [setAt, LinkedFuture]
  · grind -linarith [setAt, HandOffState.helper]
  · grind -linarith [setAt]
  · exact nodup
  · exact ret
  · grind -linarith [setAt]
  · exact failures

theorem HandOffInv.of_helperEnd {s : HandOffState φ δ} (inv : HandOffInv s) {d : δ} {f : φ}
    (isPutting : s.pc d = .putting f) (callersEq : s.callers d = []) :
    HandOffInv (s.setPc d .over) := by
  obtain ⟨unspawned, unique, once, stolen, linked, putting, waiters, nodup, ret, unused,
    failures⟩ := inv
  constructor
  · exact unspawned
  · exact unique
  · exact once
  · exact stolen
  · grind -linarith [setAt, LinkedFuture]
  · grind -linarith [setAt, HandOffState.helper]
  · grind -linarith [setAt]
  · exact nodup
  · exact ret
  · grind -linarith [setAt]
  · exact failures

/-! ### Every step -/

theorem HandOffInv.of_step {s s' : HandOffState φ δ} {label : HandOffLabel φ δ} (inv : HandOffInv s)
    (allowed : SpawnedFirst s label) (taken : handOffStep s label = some s') : HandOffInv s' := by
  cases label with
  | call d =>
      simp only [handOffStep, Option.ite_none_left_eq_some, Option.ite_none_right_eq_some,
        Option.some.injEq] at taken
      obtain ⟨-, running, rfl⟩ := taken
      exact inv.of_call running (.inl rfl)
  | spawn d =>
      simp only [handOffStep, Option.ite_none_left_eq_some, Option.ite_none_right_eq_some,
        Option.some.injEq] at taken
      obtain ⟨-, running, rfl⟩ := taken
      exact inv.of_call running (.inr rfl)
  | spawnFuture d f =>
      simp only [handOffStep, Option.ite_none_left_eq_some, Option.ite_none_right_eq_some,
        Option.some.injEq] at taken
      obtain ⟨-, ⟨running, unspawned⟩, rfl⟩ := taken
      exact inv.of_spawnFuture running unspawned
  | leave d =>
      simp only [handOffStep, Option.ite_none_left_eq_some, Option.ite_none_right_eq_some] at taken
      obtain ⟨-, ⟨running, -⟩, taken⟩ := taken
      split at taken <;> cases taken
      · exact inv.of_running (.inl running) (.inr (.inl rfl))
      · rename_i callersEq
        exact inv.of_leave running callersEq
  | steal d e =>
      simp only [handOffStep, Option.ite_none_left_eq_some, Option.ite_none_right_eq_some] at taken
      obtain ⟨-, ⟨inUse, unused⟩, taken⟩ := taken
      split at taken
      · rename_i split
        cases taken
        exact inv.of_steal inUse unused split
      · simp at taken
  | getTest d f =>
      simp only [handOffStep, Option.ite_none_left_eq_some, Option.ite_none_right_eq_some,
        Option.some.injEq] at taken
      obtain ⟨-, running, rfl⟩ := taken
      split
      · exact inv
      · exact inv.of_running (.inl running) (.inr (.inr ⟨f, rfl⟩))
  | getFetchAdd d =>
      simp only [handOffStep, Option.ite_none_left_eq_some] at taken
      obtain ⟨-, taken⟩ := taken
      split at taken
      · rename_i f drawing
        cases taken
        obtain ⟨spawned, elsewhere⟩ := allowed f drawing
        exact inv.of_getFetchAdd drawing spawned elsewhere
      · simp at taken
  | getInsert d =>
      simp only [handOffStep, Option.ite_none_left_eq_some] at taken
      obtain ⟨-, taken⟩ := taken
      split at taken
      · rename_i f drawn
        cases taken
        exact inv.of_getInsert drawn
      · simp at taken
  | getSuspend d =>
      simp only [handOffStep, Option.ite_none_left_eq_some] at taken
      obtain ⟨-, taken⟩ := taken
      split at taken
      · rename_i f inserted
        cases taken
        exact inv.of_getSuspend inserted
      · simp at taken
  | run d =>
      simp only [handOffStep, Option.ite_none_left_eq_some] at taken
      obtain ⟨-, taken⟩ := taken
      split at taken
      · rename_i f resumable
        cases taken
        exact inv.of_running (.inr ⟨f, .inl resumable⟩) (.inl rfl)
      · simp at taken
  | put d =>
      simp only [handOffStep, Option.ite_none_left_eq_some] at taken
      obtain ⟨-, taken⟩ := taken
      split at taken
      · rename_i f helper
        simp only [Option.ite_none_right_eq_some, Option.some.injEq] at taken
        obtain ⟨⟨running, -⟩, rfl⟩ := taken
        exact inv.of_put helper running
      · simp at taken
  | putFetchAdd d =>
      simp only [handOffStep, Option.ite_none_left_eq_some] at taken
      obtain ⟨-, taken⟩ := taken
      split at taken
      · rename_i f isPutting
        simp only [Option.ite_none_right_eq_some, Option.some.injEq] at taken
        obtain ⟨stored, rfl⟩ := taken
        exact inv.of_putFetchAdd isPutting stored
      · simp at taken
  | putRead d =>
      simp only [handOffStep, Option.ite_none_left_eq_some] at taken
      obtain ⟨-, taken⟩ := taken
      split at taken
      case h_2 => simp at taken
      rename_i f isPutting
      split at taken
      · rename_i numDeques w rest walk waitersEq
        cases taken
        exact inv.of_first walk waitersEq
      · rename_i numDeques ret waiters walk
        split at taken
        · cases taken
          exact inv.of_walkEnd walk
        · split at taken
          · rename_i first w rest waitersEq
            split at taken
            · rename_i g waiting
              cases taken
              exact inv.of_wake walk waitersEq waiting
            · simp at taken
          · simp at taken
      · simp at taken
  | handOff d =>
      simp only [handOffStep, Option.ite_none_left_eq_some] at taken
      obtain ⟨-, taken⟩ := taken
      split at taken
      case h_2 => simp at taken
      rename_i f isPutting
      split at taken
      case h_2 => simp at taken
      rename_i w returned
      split at taken
      · rename_i g waiting
        cases taken
        exact inv.of_handOff isPutting returned waiting
      · simp at taken
  | helperReturn d =>
      simp only [handOffStep, Option.ite_none_left_eq_some] at taken
      obtain ⟨-, taken⟩ := taken
      split at taken
      case h_2 => simp at taken
      rename_i f isPutting
      simp only [Option.ite_none_right_eq_some] at taken
      obtain ⟨-, taken⟩ := taken
      split at taken <;> cases taken
      · rename_i empty
        exact inv.of_helperEnd isPutting empty
      · rename_i callersEq
        exact inv.of_helperReturn isPutting callersEq

/-- As long as every getter draws its ticket after the spawn of the future, and not while the
    continuation of that spawn is in another deque, the active deque that a hand-off destroys has no
    continuation and no queued future fiber, and no assertion fails. -/
theorem hand_off_loses_nothing {s : HandOffState φ δ}
    (run : (handOffMachine φ δ).GuardedRun SpawnedFirst s) :
    s.failures = [] ∧
      ∀ f d w, s.pc d = .putting f → s.put f = .returned (some w) →
        ltq (s.callers d) = [] ∧ futureFibers (s.callers d) = [] := by
  have inv : HandOffInv s :=
    run.invariant (fun _ initial => .of_start initial)
      (fun _ _ _ inv allowed taken => inv.of_step allowed taken)
  refine ⟨inv.failures, fun f d w isPutting returned => ?_⟩
  rw [inv.callers_of_returned isPutting returned]
  exact ⟨rfl, rfl⟩

/-- A program with one future: the strand of deque 0 starts, and the other deque is not in use. -/
def oneFuture : HandOffState (Fin 1) (Fin 2) where
  mNumSuspendedDeques := fun _ => 0
  waiters := fun _ => []
  spawned := fun _ => false
  put := fun _ => .idle
  pc := fun d => if d = 0 then .running else .unused
  callers := fun _ => []
  bottom := fun _ => none
  failures := []

theorem oneFuture_start : (handOffMachine (Fin 1) (Fin 2)).start oneFuture :=
  ⟨fun _ => ⟨rfl, rfl, rfl, rfl⟩, by decide, rfl⟩

instance (s : HandOffState (Fin 1) (Fin 2)) : DecidablePred (SpawnedFirst s) := fun label =>
  match label with
  | .getFetchAdd d =>
      inferInstanceAs (Decidable (∀ f, s.pc d = .drawing f →
        s.spawned f = true ∧ ∀ e, e ≠ d → .future f ∉ s.callers e))
  | .call _ | .spawn _ | .spawnFuture _ _ | .leave _ | .steal _ _ | .getTest _ _ | .getInsert _
  | .getSuspend _ | .run _ | .put _ | .putFetchAdd _ | .putRead _ | .handOff _ | .helperReturn _ =>
      isTrue trivial

/-- The future is spawned, its parent is stolen and waits for it, and the future puts its result. -/
def parentWaits : List (HandOffLabel (Fin 1) (Fin 2)) :=
  [.spawnFuture 0 0, .steal 0 1, .getTest 1 0, .getFetchAdd 1, .getInsert 1, .getSuspend 1, .put 0,
    .putFetchAdd 0, .putRead 0, .putRead 0]

theorem hand_off_loses_nothing_parent :
    ltq (((handOffMachine (Fin 1) (Fin 2)).after oneFuture parentWaits).callers 0) = [] :=
  ((hand_off_loses_nothing (.after (.start oneFuture_start) parentWaits (by decide))).2 0 0 1
    rfl rfl).1

/-- A strand with a pointer to the future waits for it before it is spawned, on a deque that no
    continuation of the spawn was taken from. -/
def getterFirst : List (HandOffLabel (Fin 1) (Fin 2)) :=
  [.spawn 0, .steal 0 1, .getTest 0 0, .getFetchAdd 0, .getInsert 0, .getSuspend 0, .spawnFuture 1 0,
    .put 1, .putFetchAdd 1, .putRead 1, .putRead 1]

/-- The future returns the deque of its first waiter while the continuation of its parent is in the
    active deque; the hand-off destroys that deque and the assertion fails. -/
theorem early_getter_loses_parent :
    ∃ s s', (handOffMachine (Fin 1) (Fin 2)).Reachable s ∧
      s.pc 1 = .putting 0 ∧ s.put 0 = .returned (some 0) ∧
      ltq (s.callers 1) = [.future 0] ∧ futureFibers (s.callers 1) = [0] ∧
      handOffStep s (.handOff 1) = some s' ∧ s'.failures = [1] :=
  ⟨(handOffMachine (Fin 1) (Fin 2)).after oneFuture getterFirst, _,
    .after (.start oneFuture_start) getterFirst, rfl, rfl, rfl, rfl, rfl, rfl⟩

end CilkL
