/-
Module: CilkL.Library.LockOrder
Layer: Library
Purpose: Where all threads keep to the order of their locks, every run is free of failed assertions, no two
  threads are inside the sections of one lock, and there is no deadlock: some thread always goes on, and from
  every reachable state all threads can come to their ends.
Imports: CilkL.Library.LockCode, CilkL.Library.Potential, Mathlib.Algebra.Order.BigOperators.Group.Finset,
  Mathlib.Data.List.Nodup, Mathlib.Data.Set.Finite.Lattice, Mathlib.Data.Set.Finite.Lemmas
Trusted boundary: none
Main exports: LockInv, LockInv.advances, LockInv.exclusive, LockInv.exists_running, exists_run_to_quiet
Open obligations: none
-/
import CilkL.Library.LockCode
import CilkL.Library.Potential
import Mathlib.Algebra.Order.BigOperators.Group.Finset
import Mathlib.Data.List.Nodup
import Mathlib.Data.Set.Finite.Lattice
import Mathlib.Data.Set.Finite.Lemmas

namespace CilkL

variable {τ ℓ ι : Type} [DecidableEq τ] [DecidableEq ℓ]

/-! ### Who has which lock -/

/-- A map from locks to threads, and the locks of each thread. -/
def Tracks (P : ℓ → Prop) (owner : ℓ → Option τ) (own : τ → List ℓ) : Prop :=
  ∀ l t, P l → (owner l = some t ↔ l ∈ own t)

namespace Tracks

variable {P : ℓ → Prop} {owner : ℓ → Option τ} {own own' : τ → List ℓ} {t v : τ} {l : ℓ}

omit [DecidableEq τ] [DecidableEq ℓ] in
/-- The locks of a thread stay the same. -/
theorem same (tracks : Tracks P owner own) (now : own' t = own t) (others : ∀ v, v ≠ t → own' v = own v) :
    Tracks P owner own' := by
  intro l v isP
  by_cases isT : v = t
  · rw [isT, now]
    exact tracks l t isP
  · rw [others v isT]
    exact tracks l v isP

omit [DecidableEq τ] in
/-- A thread takes a free lock. -/
theorem take (tracks : Tracks P owner own) (free : owner l = none) (now : own' t = l :: own t)
    (others : ∀ v, v ≠ t → own' v = own v) : Tracks P (Function.update owner l (some t)) own' := by
  intro x v isP
  by_cases isL : x = l
  · rw [isL, Function.update_self]
    by_cases isT : v = t
    · rw [isT, now]
      exact ⟨fun _ => List.mem_cons_self, fun _ => rfl⟩
    · rw [others v isT, ← tracks l v (isL ▸ isP), free]
      exact ⟨fun sameThread => absurd (Option.some.inj sameThread).symm isT, nofun⟩
  · rw [Function.update_of_ne isL, tracks x v isP]
    by_cases isT : v = t
    · rw [isT, now, List.mem_cons, or_iff_right isL]
    · rw [others v isT]

omit [DecidableEq τ] in
/-- A thread releases a lock. -/
theorem drop (tracks : Tracks P owner own) (isP : P l) (was : own t = l :: own' t) (nodup : (own t).Nodup)
    (others : ∀ v, v ≠ t → own' v = own v) : Tracks P (Function.update owner l none) own' := by
  have isOwner : owner l = some t := (tracks l t isP).2 (was ▸ List.mem_cons_self)
  intro x v isPx
  by_cases isL : x = l
  · rw [isL, Function.update_self]
    refine ⟨nofun, fun member => ?_⟩
    by_cases isT : v = t
    · rw [was] at nodup
      exact absurd (isT ▸ member) (List.nodup_cons.1 nodup).1
    · rw [others v isT, ← tracks l v isP, isOwner] at member
      exact absurd (Option.some.inj member).symm isT
  · rw [Function.update_of_ne isL, tracks x v isPx]
    by_cases isT : v = t
    · rw [isT, was, List.mem_cons, or_iff_right isL]
    · rw [others v isT]

omit [DecidableEq τ] [DecidableEq ℓ] in
/-- A thread takes a lock that is not of the kind. -/
theorem takeOther (tracks : Tracks P owner own) (notP : ¬ P l) (now : own' t = l :: own t)
    (others : ∀ v, v ≠ t → own' v = own v) : Tracks P owner own' := by
  intro x v isP
  rw [tracks x v isP]
  by_cases isT : v = t
  · have isOther : x ≠ l := fun isL => notP (isL ▸ isP)
    rw [isT, now, List.mem_cons, or_iff_right isOther]
  · rw [others v isT]

omit [DecidableEq τ] [DecidableEq ℓ] in
/-- A thread releases a lock that is not of the kind. -/
theorem dropOther (tracks : Tracks P owner own) (notP : ¬ P l) (was : own t = l :: own' t)
    (others : ∀ v, v ≠ t → own' v = own v) : Tracks P owner own' := by
  intro x v isP
  rw [tracks x v isP]
  by_cases isT : v = t
  · have isOther : x ≠ l := fun isL => notP (isL ▸ isP)
    rw [isT, was, List.mem_cons, or_iff_right isOther]
  · rw [others v isT]

end Tracks

namespace LockThread

variable {x : LockThread ℓ} {l : ℓ} {held : List ℓ} {owned : ℓ → Bool}

/-- The locks whose words a thread has exchanged, where `held` are those whose sections it is in. -/
def hold (x : LockThread ℓ) (held : List ℓ) : List ℓ :=
  match x.code, x.phase with
  | .lock l _, .acquired | .tryLock l _ _, .acquired => l :: held
  | _, _ => held

/-- The locks that have the thread as their owner. -/
def own (x : LockThread ℓ) (held : List ℓ) : List ℓ :=
  match x.phase with
  | .releasing => held.tail
  | _ => held

/-- A thread is inside an operation only where its code has one. -/
def PhaseOk (owned : ℓ → Bool) (x : LockThread ℓ) : Prop :=
  match x.phase with
  | .ready => True
  | .spinning => ∃ l next, x.code = .lock l next
  | .acquired => ∃ l, owned l = true ∧
    ((∃ next, x.code = .lock l next) ∨ ∃ taken missed, x.code = .tryLock l taken missed)
  | .releasing => ∃ l next, owned l = true ∧ x.code = .unlock l next

omit [DecidableEq ℓ] in
theorem phaseOk_spinning (spinning : x.phase = .spinning) : 
    x.PhaseOk owned ↔ ∃ l next, x.code = .lock l next := by
  rw [PhaseOk, spinning]

omit [DecidableEq ℓ] in
theorem phaseOk_acquired (acquired : x.phase = .acquired) :
    x.PhaseOk owned ↔
      ∃ l, owned l = true ∧ ((∃ next, x.code = .lock l next) ∨ ∃ taken missed,
        x.code = .tryLock l taken missed) := by
  rw [PhaseOk, acquired]

omit [DecidableEq ℓ] in
theorem phaseOk_releasing (releasing : x.phase = .releasing) :
    x.PhaseOk owned ↔ ∃ l next, owned l = true ∧ x.code = .unlock l next := by
  rw [PhaseOk, releasing]

omit [DecidableEq ℓ] in
/-- A thread whose code has no operation on a lock next is before its step. -/
theorem PhaseOk.ready (ok : x.PhaseOk owned) (noLock : ∀ l next, x.code ≠ .lock l next)
    (noTry : ∀ l taken missed, x.code ≠ .tryLock l taken missed)
      (noUnlock : ∀ l next, x.code ≠ .unlock l next) :
    x.phase = .ready := by
  cases isPhase : x.phase with
  | ready => rfl
  | spinning =>
    obtain ⟨l, next, isLock⟩ := (phaseOk_spinning isPhase).1 ok
    exact absurd isLock (noLock l next)
  | acquired =>
    obtain ⟨l, _, ⟨next, isLock⟩ | ⟨taken, missed, isLock⟩⟩ := (phaseOk_acquired isPhase).1 ok
    · exact absurd isLock (noLock l next)
    · exact absurd isLock (noTry l taken missed)
  | releasing =>
    obtain ⟨l, next, _, isUnlock⟩ := (phaseOk_releasing isPhase).1 ok
    exact absurd isUnlock (noUnlock l next)

omit [DecidableEq ℓ] in
theorem hold_of_ready (ready : x.phase = .ready) : x.hold held = held := by
  unfold hold
  split <;> simp_all

omit [DecidableEq ℓ] in
theorem hold_of_spinning (spinning : x.phase = .spinning) : x.hold held = held := by
  unfold hold
  split <;> simp_all

omit [DecidableEq ℓ] in
theorem hold_of_releasing (releasing : x.phase = .releasing) : x.hold held = held := by
  unfold hold
  split <;> simp_all

omit [DecidableEq ℓ] in
theorem own_of_ready (ready : x.phase = .ready) : x.own held = held := by rw [own, ready]

omit [DecidableEq ℓ] in
theorem own_of_spinning (spinning : x.phase = .spinning) : x.own held = held := by rw [own, spinning]

omit [DecidableEq ℓ] in
theorem own_of_acquired (acquired : x.phase = .acquired) : x.own held = held := by rw [own, acquired]

omit [DecidableEq ℓ] in
theorem own_of_releasing (releasing : x.phase = .releasing) : x.own held = held.tail := by rw [own, releasing]

/-- The steps that are left to a thread that never waits. -/
def load (x : LockThread ℓ) : Nat :=
  match x.phase with
  | .spinning => x.code.weight
  | .ready => x.code.weight - 1
  | .acquired | .releasing => x.code.weight - 2

omit [DecidableEq ℓ] in
theorem mem_hold (member : l ∈ held) : l ∈ x.hold held := by
  unfold hold
  split
  · exact List.mem_cons_of_mem _ member
  · exact List.mem_cons_of_mem _ member
  · exact member

omit [DecidableEq ℓ] in
/-- What a thread owns it has. -/
theorem mem_hold_of_own (member : l ∈ x.own held) : l ∈ x.hold held := by
  cases phase : x.phase with
  | ready =>
    rw [own_of_ready phase] at member
    rwa [hold_of_ready phase]
  | spinning =>
    rw [own_of_spinning phase] at member
    rwa [hold_of_spinning phase]
  | acquired =>
    rw [own_of_acquired phase] at member
    exact mem_hold member
  | releasing =>
    rw [own_of_releasing phase] at member
    rw [hold_of_releasing phase]
    exact List.mem_of_mem_tail member

end LockThread

/-! ### The invariant -/

section Inv

variable {κ : Type} [Preorder κ] {locks : LockOrder ℓ κ} {s s' : LockState τ ℓ} {held : τ → List ℓ}
  {holder : ℓ → Option τ} {t v : τ} {l : ℓ} {x : LockThread ℓ} {h : List ℓ}

/-- `held` are the locks whose sections each thread is in, and `holder` is who has exchanged the word of
each. -/
structure LockInv (locks : LockOrder ℓ κ) (s : LockState τ ℓ) (held : τ → List ℓ)
    (holder : ℓ → Option τ) : Prop where
  keeps : ∀ t, (s.thread t).code.Keeps locks (held t) (s.thread t).flag [] false
  phase : ∀ t, (s.thread t).PhaseOk locks.owned
  nodup : ∀ t, ((s.thread t).hold (held t)).Nodup
  word : ∀ l, s.word l = (holder l).isSome
  holder : Tracks (fun _ => True) holder fun t => (s.thread t).hold (held t)
  owner : Tracks (fun l => locks.owned l = true) s.owner fun t => (s.thread t).own (held t)

omit [DecidableEq ℓ] in
/-- One thread changes. -/
theorem LockInv.set {holder' : ℓ → Option τ} (inv : LockInv locks s held holder)
    (thread : s'.thread = Function.update s.thread t x) (keeps : x.code.Keeps locks h x.flag [] false)
    (phase : x.PhaseOk locks.owned) (nodup : (x.hold h).Nodup) (word : ∀ l, s'.word l = (holder' l).isSome)
    (isHolder : ∀ all : τ → List ℓ, all t = x.hold h → (∀ v, v ≠ t → all v = (s.thread v).hold (held v)) →
      Tracks (fun _ => True) holder' all)
    (isOwner : ∀ all : τ → List ℓ, all t = x.own h → (∀ v, v ≠ t → all v = (s.thread v).own (held v)) →
      Tracks (fun l => locks.owned l = true) s'.owner all) :
    LockInv locks s' (Function.update held t h) holder' := by
  have now : s'.thread t = x := by rw [thread, Function.update_self]
  have heldNow : Function.update held t h t = h := Function.update_self ..
  have other : ∀ v, v ≠ t → s'.thread v = s.thread v ∧ Function.update held t h v = held v := by
    intro v isOther
    rw [thread]
    exact ⟨Function.update_of_ne isOther .., Function.update_of_ne isOther ..⟩
  constructor
  · intro v
    by_cases isT : v = t
    · rw [isT, now, heldNow]
      exact keeps
    · rw [(other v isT).1, (other v isT).2]
      exact inv.keeps v
  · intro v
    by_cases isT : v = t
    · rw [isT, now]
      exact phase
    · rw [(other v isT).1]
      exact inv.phase v
  · intro v
    by_cases isT : v = t
    · rw [isT, now, heldNow]
      exact nodup
    · rw [(other v isT).1, (other v isT).2]
      exact inv.nodup v
  · exact word
  · apply isHolder
    · rw [now, heldNow]
    · intro v isOther
      rw [(other v isOther).1, (other v isOther).2]
  · apply isOwner
    · rw [now, heldNow]
    · intro v isOther
      rw [(other v isOther).1, (other v isOther).2]

omit [DecidableEq τ] [DecidableEq ℓ] in
/-- Nobody has anything at the start. -/
theorem LockInv.of_quiet (quiet : s.Quiet locks.owned) : LockInv locks s (fun _ => []) fun _ => none := by
  constructor
  · intro t
    rw [quiet.thread t]
    exact LockCode.keeps_done
  · intro t
    rw [quiet.thread t]
    exact trivial
  · intro t
    rw [quiet.thread t]
    exact List.nodup_nil
  · intro l
    rw [quiet.word l]
    rfl
  · intro l t _
    have none : (s.thread t).hold [] = [] := by rw [quiet.thread t]; rfl
    simp [none]
  · intro l t isOwned
    have none : (s.thread t).own [] = [] := by rw [quiet.thread t]; rfl
    simp [none, quiet.owner l isOwned]

namespace LockInv

variable (inv : LockInv locks s held holder)
include inv

omit [DecidableEq τ] [DecidableEq ℓ] in
/-- A lock whose word is clear is nobody's. -/
theorem free (isClear : s.word l = false) : holder l = none ∧ ∀ v, l ∉ (s.thread v).hold (held v) := by
  have isNone : holder l = none := by
    rw [inv.word l] at isClear
    exact Option.not_isSome_iff_eq_none.1 (by rw [isClear]; decide)
  refine ⟨isNone, fun v member => ?_⟩
  have isHolder := (inv.holder l v trivial).2 member
  rw [isNone] at isHolder
  exact absurd isHolder (by simp)

omit [DecidableEq τ] [DecidableEq ℓ] in
/-- A lock that a thread has just exchanged has no owner. -/
theorem owner_eq_none (isOwned : locks.owned l = true) (phase : (s.thread t).phase = .acquired)
    (taking : (s.thread t).hold (held t) = l :: held t) : s.owner l = none := by
  have isIn : l ∈ (s.thread t).hold (held t) := by
    rw [taking]
    exact List.mem_cons_self
  have isHolder : holder l = some t := (inv.holder l t trivial).2 isIn
  cases isOwner : s.owner l with
  | none => rfl
  | some v =>
    have member : l ∈ (s.thread v).own (held v) := (inv.owner l v isOwned).1 isOwner
    have isAlso : holder l = some v := (inv.holder l v trivial).2 (LockThread.mem_hold_of_own member)
    have isT : t = v := Option.some.inj (isHolder.symm.trans isAlso)
    have nodup := inv.nodup t
    rw [taking] at nodup
    rw [← isT, LockThread.own_of_acquired phase] at member
    exact absurd member (List.nodup_cons.1 nodup).1

omit [DecidableEq ℓ] in
/-- A thread goes on without a word or an owner. -/
theorem go_on (resting : (s.thread t).phase = .ready ∨ (s.thread t).phase = .spinning)
    (keeps : x.code.Keeps locks (held t) x.flag [] false)
    (phase : x.phase = .ready ∨ x.phase = .spinning ∧ ∃ l next, x.code = .lock l next) :
    LockInv locks (s.setThread t x) (Function.update held t (held t)) holder := by
  have hold : x.hold (held t) = held t :=
    phase.elim LockThread.hold_of_ready fun spinning => LockThread.hold_of_spinning spinning.1
  have own : x.own (held t) = held t :=
    phase.elim LockThread.own_of_ready fun spinning => LockThread.own_of_spinning spinning.1
  have before : (s.thread t).hold (held t) = held t :=
    resting.elim LockThread.hold_of_ready LockThread.hold_of_spinning
  have beforeOwn : (s.thread t).own (held t) = held t :=
    resting.elim LockThread.own_of_ready LockThread.own_of_spinning
  apply inv.set rfl keeps
  · unfold LockThread.PhaseOk
    rcases phase with isReady | ⟨isSpinning, isLock⟩
    · rw [isReady]
      exact trivial
    · rw [isSpinning]
      exact isLock
  · rw [hold, ← before]
    exact inv.nodup t
  · exact inv.word
  · intro all now others
    exact inv.holder.same (by rw [now, hold, before]) others
  · intro all now others
    exact inv.owner.same (by rw [now, own, beforeOwn]) others

/-- A thread exchanges a word that was clear. -/
theorem exchange (ready : (s.thread t).phase = .ready) (isClear : s.word l = false)
    (keeps : x.code.Keeps locks h x.flag [] false) (phase : x.PhaseOk locks.owned)
      (hold : x.hold h = l :: held t)
    (own : locks.owned l = true ∧ x.own h = held t ∨ locks.owned l = false ∧ x.own h = l :: held t) :
    LockInv locks ((s.setWord l true).setThread t x) (Function.update held t h)
      (Function.update holder l (some t)) := by
  have before : (s.thread t).hold (held t) = held t := LockThread.hold_of_ready ready
  have beforeOwn : (s.thread t).own (held t) = held t := LockThread.own_of_ready ready
  obtain ⟨isNone, notIn⟩ := inv.free isClear
  apply inv.set rfl keeps phase
  · rw [hold, ← before]
    exact List.nodup_cons.2 ⟨notIn t, inv.nodup t⟩
  · intro l'
    change Function.update s.word l true l' = _
    by_cases isL : l' = l
    · rw [isL, Function.update_self, Function.update_self]
      rfl
    · rw [Function.update_of_ne isL, Function.update_of_ne isL]
      exact inv.word l'
  · intro all now others
    exact inv.holder.take isNone (by rw [now, hold, before]) others
  · intro all now others
    change Tracks (fun l => locks.owned l = true) s.owner all
    rcases own with ⟨_, same⟩ | ⟨notOwned, more⟩
    · exact inv.owner.same (by rw [now, same, beforeOwn]) others
    · refine inv.owner.takeOther (l := l) (t := t) (by rw [notOwned]; decide) ?_ others
      rw [now, more, beforeOwn]

/-- A thread that has exchanged a word stores itself as the owner. -/
theorem store (acquired : (s.thread t).phase = .acquired) (isOwned : locks.owned l = true)
    (taking : (s.thread t).hold (held t) = l :: held t) (ready : x.phase = .ready)
    (keeps : x.code.Keeps locks (l :: held t) x.flag [] false) :
    LockInv locks ((s.setOwner l (some t)).setThread t x) (Function.update held t (l :: held t)) holder := by
  have hold : x.hold (l :: held t) = l :: held t := LockThread.hold_of_ready ready
  have own : x.own (l :: held t) = l :: held t := LockThread.own_of_ready ready
  have beforeOwn : (s.thread t).own (held t) = held t := LockThread.own_of_acquired acquired
  apply inv.set rfl keeps
  · unfold LockThread.PhaseOk
    rw [ready]
    exact trivial
  · rw [hold, ← taking]
    exact inv.nodup t
  · exact inv.word
  · intro all now others
    exact inv.holder.same (by rw [now, hold, taking]) others
  · intro all now others
    refine inv.owner.take (inv.owner_eq_none isOwned acquired taking) ?_ others
    rw [now, own, beforeOwn]

/-- A thread clears the word of a lock that it has, whether or not it has cleared an owner before. -/
theorem clear (was : held t = l :: h) (hold : (s.thread t).hold (held t) = held t)
    (own : locks.owned l = true ∧ (s.thread t).own (held t) = h ∨ locks.owned l = false ∧
      (s.thread t).own (held t) = held t)
    (ready : x.phase = .ready) (keeps : x.code.Keeps locks h x.flag [] false) :
    LockInv locks ((s.setWord l false).setThread t x) (Function.update held t h)
      (Function.update holder l none) := by
  have after : x.hold h = h := LockThread.hold_of_ready ready
  have afterOwn : x.own h = h := LockThread.own_of_ready ready
  have nodup := inv.nodup t
  have isCons : (s.thread t).hold (held t) = l :: h := hold.trans was
  apply inv.set rfl keeps
  · unfold LockThread.PhaseOk
    rw [ready]
    exact trivial
  · rw [isCons] at nodup
    rw [after]
    exact (List.nodup_cons.1 nodup).2
  · intro l'
    change Function.update s.word l false l' = _
    by_cases isL : l' = l
    · rw [isL, Function.update_self, Function.update_self]
      rfl
    · rw [Function.update_of_ne isL, Function.update_of_ne isL]
      exact inv.word l'
  · intro all now others
    exact inv.holder.drop trivial (by rw [now, after, isCons]) nodup others
  · intro all now others
    change Tracks (fun l => locks.owned l = true) s.owner all
    rcases own with ⟨_, same⟩ | ⟨notOwned, more⟩
    · exact inv.owner.same (by rw [now, afterOwn, same]) others
    · refine inv.owner.dropOther (l := l) (t := t) (by rw [notOwned]; decide) ?_ others
      rw [now, afterOwn, more, was]

/-- A thread that is to release a lock clears its owner first. -/
theorem disown (ready : (s.thread t).phase = .ready) (isOwned : locks.owned l = true) (was : held t = l :: h)
    (releasing : x.phase = .releasing) (isUnlock : ∃ next, x.code = .unlock l next)
    (keeps : x.code.Keeps locks (held t) x.flag [] false) :
    LockInv locks ((s.setOwner l none).setThread t x) (Function.update held t (held t)) holder := by
  have before : (s.thread t).hold (held t) = held t := LockThread.hold_of_ready ready
  have beforeOwn : (s.thread t).own (held t) = held t := LockThread.own_of_ready ready
  have hold : x.hold (held t) = held t := LockThread.hold_of_releasing releasing
  have own : x.own (held t) = h := by rw [LockThread.own_of_releasing releasing, was]; rfl
  have nodup := inv.nodup t
  rw [before] at nodup
  apply inv.set rfl keeps
  · unfold LockThread.PhaseOk
    rw [releasing]
    obtain ⟨next, isCode⟩ := isUnlock
    exact ⟨l, next, isOwned, isCode⟩
  · rwa [hold]
  · exact inv.word
  · intro all now others
    exact inv.holder.same (by rw [now, hold, before]) others
  · intro all now others
    exact inv.owner.drop isOwned (by rw [now, own, beforeOwn, was]) (by rwa [beforeOwn]) others

omit [DecidableEq ℓ] in
/-- Another piece of code begins. -/
theorem begin {code : LockCode ℓ} (isDone : (s.thread t).code = .done)
    (keeps : code.Keeps locks [] false [] false) :
    LockInv locks (s.setThread t { s.thread t with code }) (Function.update held t (held t)) holder := by
  have ended := inv.keeps t
  rw [isDone] at ended
  have ready : (s.thread t).phase = .ready :=
    (inv.phase t).ready (by simp [isDone]) (by simp [isDone]) (by simp [isDone])
  have rest : code.Keeps locks (held t) (s.thread t).flag [] false := by
    rw [ended.1, ended.2]
    exact keeps
  exact inv.go_on (x := { s.thread t with code }) (.inl ready) rest (.inl ready)

end LockInv

/-- A thread has a step, the step keeps the invariant and is the thread's alone, and if the thread does not
wait it comes nearer to its end. -/
def Advances (locks : LockOrder ℓ κ) (s : LockState τ ℓ) (t : τ) (choice : Bool) : Prop :=
  ∃ s' x held holder, lockStep locks.owned s t choice = some s' ∧ s'.thread = Function.update s.thread t x ∧
    LockInv locks s' held holder ∧ ((∀ l, ¬ s.Waits t l) → x.load < (s.thread t).load)

namespace LockInv

variable (inv : LockInv locks s held holder)
include inv

theorem advances_lock {next : LockCode ℓ} {choice : Bool} (isCode : (s.thread t).code = .lock l next) :
    Advances locks s t choice := by
  have keeps := inv.keeps t
  rw [isCode] at keeps
  cases isPhase : (s.thread t).phase with
  | ready =>
    cases isWord : s.word l with
    | true =>
      have after := inv.go_on (x := { s.thread t with phase := .spinning }) (.inl isPhase) (isCode ▸ keeps)
        (.inr ⟨rfl, l, next, isCode⟩)
      refine ⟨_, _, _, _, ?_, rfl, after, fun notWaits => ?_⟩
      · simp [lockStep, isCode, isPhase, isWord]
      · exact absurd ⟨⟨next, isCode⟩, by simp [isPhase], isWord⟩ (notWaits l)
    | false =>
      cases isOwned : locks.owned l with
      | true =>
        have after := inv.exchange (x := { s.thread t with phase := .acquired }) (h := held t) isPhase isWord
          (isCode ▸ keeps) (show ∃ l, _ from ⟨l, isOwned, .inl ⟨next, isCode⟩⟩)
            (by simp [LockThread.hold, isCode])
          (.inl ⟨isOwned, rfl⟩)
        refine ⟨_, _, _, _, ?_, rfl, after, fun _ => ?_⟩
        · simp [lockStep, isCode, isPhase, isWord, isOwned]
        · simp [LockThread.load, isCode, isPhase, LockCode.weight]
      | false =>
        have after := inv.exchange (x := { s.thread t with code := next }) isPhase isWord keeps.2
          (by simp [LockThread.PhaseOk, isPhase]) (LockThread.hold_of_ready isPhase)
          (.inr ⟨isOwned, LockThread.own_of_ready isPhase⟩)
        refine ⟨_, _, _, _, ?_, rfl, after, fun _ => ?_⟩
        · simp [lockStep, isCode, isPhase, isWord, isOwned]
        · simp only [LockThread.load, isCode, isPhase, LockCode.weight]
          omega
  | spinning =>
    cases isWord : s.word l with
    | true =>
      refine ⟨s, s.thread t, held, holder, ?_, (Function.update_eq_self t s.thread).symm,
        inv, fun notWaits => ?_⟩
      · simp [lockStep, isCode, isPhase, isWord]
      · exact absurd ⟨⟨next, isCode⟩, by simp [isPhase], isWord⟩ (notWaits l)
    | false =>
      have after := inv.go_on (x := { s.thread t with phase := .ready }) (.inr isPhase)
        (isCode ▸ keeps) (.inl rfl)
      refine ⟨_, _, _, _, ?_, rfl, after, fun _ => ?_⟩
      · simp [lockStep, isCode, isPhase, isWord]
      · simp [LockThread.load, isCode, isPhase, LockCode.weight]
  | acquired =>
    have isOwned : locks.owned l = true := by
      obtain ⟨l', isOwned, same⟩ := (LockThread.phaseOk_acquired isPhase).1 (inv.phase t)
      rw [isCode] at same
      simp only [LockCode.lock.injEq, reduceCtorEq, exists_false, or_false] at same
      obtain ⟨_, rfl, _⟩ := same
      exact isOwned
    have taking : (s.thread t).hold (held t) = l :: held t := by simp [LockThread.hold, isCode, isPhase]
    have after := inv.store (x := { s.thread t with code := next, phase := .ready }) isPhase
      isOwned taking rfl keeps.2
    refine ⟨_, _, _, _, ?_, rfl, after, fun _ => ?_⟩
    · simp [lockStep, isCode, isPhase, inv.owner_eq_none isOwned isPhase taking]
    · simp only [LockThread.load, isCode, isPhase, LockCode.weight]
      omega
  | releasing =>
    obtain ⟨l', next', _, isUnlock⟩ := (LockThread.phaseOk_releasing isPhase).1 (inv.phase t)
    exact absurd (isCode.symm.trans isUnlock) (by simp)

theorem advances_tryLock {taken missed : LockCode ℓ} {choice : Bool}
    (isCode : (s.thread t).code = .tryLock l taken missed) : Advances locks s t choice := by
  have keeps := inv.keeps t
  rw [isCode] at keeps
  cases isPhase : (s.thread t).phase with
  | ready =>
    cases isWord : s.word l with
    | true =>
      have after := inv.go_on (x := { s.thread t with code := missed }) (.inl isPhase) keeps.2.2 (.inl isPhase)
      refine ⟨_, _, _, _, ?_, rfl, after, fun _ => ?_⟩
      · simp [lockStep, isCode, isPhase, isWord]
      · simp only [LockThread.load, isCode, isPhase, LockCode.weight]
        omega
    | false =>
      cases isOwned : locks.owned l with
      | true =>
        have after := inv.exchange (x := { s.thread t with phase := .acquired }) (h := held t) isPhase isWord
          (isCode ▸ keeps) (show ∃ l, _ from ⟨l, isOwned, .inr ⟨taken, missed, isCode⟩⟩)
          (by simp [LockThread.hold, isCode]) (.inl ⟨isOwned, rfl⟩)
        refine ⟨_, _, _, _, ?_, rfl, after, fun _ => ?_⟩
        · simp [lockStep, isCode, isPhase, isWord, isOwned]
        · simp [LockThread.load, isCode, isPhase, LockCode.weight]
      | false =>
        have after := inv.exchange (x := { s.thread t with code := taken }) isPhase isWord keeps.2.1
          (by simp [LockThread.PhaseOk, isPhase]) (LockThread.hold_of_ready isPhase)
          (.inr ⟨isOwned, LockThread.own_of_ready isPhase⟩)
        refine ⟨_, _, _, _, ?_, rfl, after, fun _ => ?_⟩
        · simp [lockStep, isCode, isPhase, isWord, isOwned]
        · simp only [LockThread.load, isCode, isPhase, LockCode.weight]
          omega
  | spinning =>
    obtain ⟨l', next, isLock⟩ := (LockThread.phaseOk_spinning isPhase).1 (inv.phase t)
    exact absurd (isCode.symm.trans isLock) (by simp)
  | acquired =>
    have isOwned : locks.owned l = true := by
      obtain ⟨l', isOwned, same⟩ := (LockThread.phaseOk_acquired isPhase).1 (inv.phase t)
      rw [isCode] at same
      simp only [LockCode.tryLock.injEq, reduceCtorEq, exists_false, false_or] at same
      obtain ⟨_, _, rfl, _⟩ := same
      exact isOwned
    have taking : (s.thread t).hold (held t) = l :: held t := by simp [LockThread.hold, isCode, isPhase]
    have after := inv.store (x := { s.thread t with code := taken, phase := .ready }) isPhase isOwned taking rfl
      keeps.2.1
    refine ⟨_, _, _, _, ?_, rfl, after, fun _ => ?_⟩
    · simp [lockStep, isCode, isPhase, inv.owner_eq_none isOwned isPhase taking]
    · simp only [LockThread.load, isCode, isPhase, LockCode.weight]
      omega
  | releasing =>
    obtain ⟨l', next', _, isUnlock⟩ := (LockThread.phaseOk_releasing isPhase).1 (inv.phase t)
    exact absurd (isCode.symm.trans isUnlock) (by simp)

theorem advances_unlock {next : LockCode ℓ} {choice : Bool} (isCode : (s.thread t).code = .unlock l next) :
    Advances locks s t choice := by
  have keeps := inv.keeps t
  rw [isCode] at keeps
  obtain ⟨isHead, rest⟩ := keeps
  have was : held t = l :: (held t).tail := List.eq_cons_of_mem_head? isHead
  cases isPhase : (s.thread t).phase with
  | ready =>
    have hold : (s.thread t).hold (held t) = held t := LockThread.hold_of_ready isPhase
    have own : (s.thread t).own (held t) = held t := LockThread.own_of_ready isPhase
    cases isOwned : locks.owned l with
    | true =>
      have isOwner : s.owner l = some t := by
        have member : l ∈ (s.thread t).own (held t) := by
          rw [own, was]
          exact List.mem_cons_self
        exact (inv.owner l t isOwned).2 member
      have after := inv.disown (x := { s.thread t with phase := .releasing }) isPhase
        isOwned was rfl ⟨next, isCode⟩
        (isCode ▸ ⟨isHead, rest⟩)
      refine ⟨_, _, _, _, ?_, rfl, after, fun _ => ?_⟩
      · simp [lockStep, isCode, isPhase, isOwned, isOwner]
      · simp [LockThread.load, isCode, isPhase, LockCode.weight]
    | false =>
      have after := inv.clear (x := { s.thread t with code := next }) was hold
        (.inr ⟨isOwned, own⟩) isPhase rest
      refine ⟨_, _, _, _, ?_, rfl, after, fun _ => ?_⟩
      · simp [lockStep, isCode, isPhase, isOwned]
      · simp only [LockThread.load, isCode, isPhase, LockCode.weight]
        omega
  | spinning =>
    obtain ⟨l', next, isLock⟩ := (LockThread.phaseOk_spinning isPhase).1 (inv.phase t)
    exact absurd (isCode.symm.trans isLock) (by simp)
  | acquired =>
    obtain ⟨l', _, ⟨_, isLock⟩ | ⟨_, _, isLock⟩⟩ := (LockThread.phaseOk_acquired isPhase).1 (inv.phase t)
    · exact absurd (isCode.symm.trans isLock) (by simp)
    · exact absurd (isCode.symm.trans isLock) (by simp)
  | releasing =>
    have isOwned : locks.owned l = true := by
      obtain ⟨l', next', isOwned, same⟩ := (LockThread.phaseOk_releasing isPhase).1 (inv.phase t)
      rw [isCode] at same
      obtain ⟨rfl, _⟩ := LockCode.unlock.inj same
      exact isOwned
    have after := inv.clear (x := { s.thread t with code := next, phase := .ready }) was
      (LockThread.hold_of_releasing isPhase) (.inl ⟨isOwned, LockThread.own_of_releasing isPhase⟩) rfl rest
    refine ⟨_, _, _, _, ?_, rfl, after, fun _ => ?_⟩
    · simp [lockStep, isCode, isPhase]
    · simp only [LockThread.load, isCode, isPhase, LockCode.weight]
      omega

theorem advances_setFlag {next : LockCode ℓ} {choice : Bool} (isCode : (s.thread t).code = .setFlag next) :
    Advances locks s t choice := by
  have keeps := inv.keeps t
  rw [isCode] at keeps
  have isPhase := (inv.phase t).ready (by simp [isCode]) (by simp [isCode]) (by simp [isCode])
  have after := inv.go_on (x := { s.thread t with flag := true, code := next })
    (.inl isPhase) keeps.2 (.inl isPhase)
  refine ⟨_, _, _, _, ?_, rfl, after, fun _ => ?_⟩
  · simp [lockStep, isCode, isPhase, keeps.1]
  · simp only [LockThread.load, isCode, isPhase, LockCode.weight]
    omega

theorem advances_clearFlag {next : LockCode ℓ} {choice : Bool} (isCode : (s.thread t).code = .clearFlag next) :
    Advances locks s t choice := by
  have keeps := inv.keeps t
  rw [isCode] at keeps
  have isPhase := (inv.phase t).ready (by simp [isCode]) (by simp [isCode]) (by simp [isCode])
  have after := inv.go_on (x := { s.thread t with flag := false, code := next })
    (.inl isPhase) keeps.2 (.inl isPhase)
  refine ⟨_, _, _, _, ?_, rfl, after, fun _ => ?_⟩
  · simp [lockStep, isCode, isPhase, keeps.1]
  · simp only [LockThread.load, isCode, isPhase, LockCode.weight]
    omega

theorem advances_readOwner {next : LockCode ℓ} {mine choice : Bool}
    (isCode : (s.thread t).code = .readOwner l mine next) : Advances locks s t choice := by
  have keeps := inv.keeps t
  rw [isCode] at keeps
  have isPhase := (inv.phase t).ready (by simp [isCode]) (by simp [isCode]) (by simp [isCode])
  have own : (s.thread t).own (held t) = held t := LockThread.own_of_ready isPhase
  have isOwner : s.owner l = some t ↔ l ∈ held t := by
    rw [← own]
    exact inv.owner l t keeps.1
  have reads : decide (s.owner l = some t) = mine := by
    rw [Bool.eq_iff_iff, decide_eq_true_iff, isOwner]
    exact keeps.2.1.symm
  have after := inv.go_on (x := { s.thread t with code := next }) (.inl isPhase) keeps.2.2 (.inl isPhase)
  refine ⟨_, _, _, _, ?_, rfl, after, fun _ => ?_⟩
  · simp [lockStep, isCode, isPhase, reads]
  · simp only [LockThread.load, isCode, isPhase, LockCode.weight]
    omega

theorem advances_branch {left right : LockCode ℓ} {choice : Bool}
    (isCode : (s.thread t).code = .branch left right) :
    Advances locks s t choice := by
  have keeps := inv.keeps t
  rw [isCode] at keeps
  have isPhase := (inv.phase t).ready (by simp [isCode]) (by simp [isCode]) (by simp [isCode])
  have chosen : (if choice then left else right).Keeps locks (held t) (s.thread t).flag [] false := by
    cases choice
    · exact keeps.2
    · exact keeps.1
  have after := inv.go_on (x := { s.thread t with code := if choice then left else right })
    (.inl isPhase) chosen
    (.inl isPhase)
  refine ⟨_, _, _, _, ?_, rfl, after, fun _ => ?_⟩
  · simp [lockStep, isCode, isPhase]
  · simp only [LockThread.load, isCode, isPhase, LockCode.weight]
    cases choice
    · simp
      omega
    · simp
      omega

/-- A thread that is not at its end has a step, and no assertion fails in it. -/
theorem advances (running : (s.thread t).code ≠ .done) (choice : Bool) : Advances locks s t choice := by
  cases isCode : (s.thread t).code with
  | done => exact absurd isCode running
  | lock l next => exact inv.advances_lock isCode
  | tryLock l taken missed => exact inv.advances_tryLock isCode
  | unlock l next => exact inv.advances_unlock isCode
  | setFlag next => exact inv.advances_setFlag isCode
  | clearFlag next => exact inv.advances_clearFlag isCode
  | readOwner l mine next => exact inv.advances_readOwner isCode
  | branch left right => exact inv.advances_branch isCode

end LockInv

omit [Preorder κ] in
/-- A thread at its end has no step. -/
theorem lockStep_done {choice : Bool} (isDone : (s.thread t).code = .done) :
    lockStep locks.owned s t choice = none := by
  simp [lockStep, isDone]

/-- Every reachable state has the invariant. -/
theorem lockInv_of_reachable {codeOf : τ → ι → LockCode ℓ}
    (keeps : ∀ t call, (codeOf t call).Keeps locks [] false [] false)
    (reachable : (lockMachine locks.owned codeOf).Reachable s) :
    ∃ held holder, LockInv locks s held holder := by
  induction reachable with
  | start quiet => exact ⟨_, _, LockInv.of_quiet quiet⟩
  | @step s s' a _ taken ih =>
    obtain ⟨held, holder, inv⟩ := ih
    cases a with
    | begin t call =>
      simp only [lockMachine] at taken
      split at taken
      case isTrue isDone =>
        obtain rfl := Option.some.inj taken
        exact ⟨_, _, inv.begin isDone (keeps t call)⟩
      case isFalse => exact absurd taken (by simp)
    | step t choice =>
      have stepped : lockStep locks.owned s t choice = some s' := taken
      have running : (s.thread t).code ≠ .done := by
        intro isDone
        rw [lockStep_done isDone] at stepped
        exact absurd stepped (by simp)
      obtain ⟨next, x, held', holder', isNext, _, after, _⟩ := inv.advances running choice
      obtain rfl := Option.some.inj (isNext.symm.trans stepped)
      exact ⟨held', holder', after⟩

omit [DecidableEq τ] [DecidableEq ℓ] in
/-- Two threads are never inside the sections of one lock. -/
theorem LockInv.exclusive (inv : LockInv locks s held holder) (first : (s.thread t).code.Inside l)
    (second : (s.thread v).code.Inside l) : t = v := by
  have isHolder : ∀ v, (s.thread v).code.Inside l → holder l = some v := by
    intro v inside
    have member : l ∈ held v := (inv.keeps v).mem_of_inside inside
    exact (inv.holder l v trivial).2 (LockThread.mem_hold member)
  exact Option.some.inj ((isHolder t first).symm.trans (isHolder v second))

end Inv

/-! ### No deadlock -/

section Progress

variable {κ : Type} [LinearOrder κ] [Finite τ] {locks : LockOrder ℓ κ} {s : LockState τ ℓ}
  {held : τ → List ℓ} {holder : ℓ → Option τ}

omit [DecidableEq τ] [DecidableEq ℓ] in
/-- A thread waits for one lock at a time, so that finitely many are waited for. -/
theorem LockState.finite_waits (s : LockState τ ℓ) : {l | ∃ t, s.Waits t l}.Finite := by
  have single : ∀ t, {l | s.Waits t l}.Subsingleton := by
    rintro t l ⟨⟨next, isCode⟩, _⟩ l' ⟨⟨next', isCode'⟩, _⟩
    exact (LockCode.lock.inj (isCode.symm.trans isCode')).1
  have union : {l | ∃ t, s.Waits t l} = ⋃ t, {l | s.Waits t l} := by
    ext l
    simp
  rw [union]
  exact Set.finite_iUnion fun t => (single t).finite

omit [DecidableEq τ] [DecidableEq ℓ] [Finite τ] in
/-- A thread that waits has only locks that are below the one it waits for. -/
theorem LockInv.rank_lt (inv : LockInv locks s held holder) {t : τ} {l l' : ℓ} (waits : s.Waits t l)
    (member : l' ∈ (s.thread t).hold (held t)) : locks.rank l' < locks.rank l := by
  obtain ⟨⟨next, isCode⟩, notAcquired, _⟩ := waits
  have keeps := inv.keeps t
  rw [isCode] at keeps
  have hold : (s.thread t).hold (held t) = held t := by
    cases isPhase : (s.thread t).phase with
    | ready => exact LockThread.hold_of_ready isPhase
    | spinning => exact LockThread.hold_of_spinning isPhase
    | acquired => exact absurd isPhase notAcquired
    | releasing => exact LockThread.hold_of_releasing isPhase
  rw [hold] at member
  exact keeps.1 l' member

omit [DecidableEq τ] [DecidableEq ℓ] in
/-- Where some thread is not at its end, one of them neither is nor waits: of the locks that are waited for,
the one that is the last in the order has such a thread for its holder. -/
theorem LockInv.exists_running (inv : LockInv locks s held holder) (running : ∃ t, (s.thread t).code ≠ .done) :
    ∃ t, (s.thread t).code ≠ .done ∧ ∀ l, ¬ s.Waits t l := by
  by_contra noThread
  have waits : ∀ t, (s.thread t).code ≠ .done → ∃ l, s.Waits t l := by
    intro t running
    by_contra notWaits
    exact noThread ⟨t, running, fun l isWaiting => notWaits ⟨l, isWaiting⟩⟩
  obtain ⟨t, isRunning⟩ := running
  obtain ⟨l, isWaiting⟩ := waits t isRunning
  obtain ⟨top, ⟨u, waitsTop⟩, above⟩ := Set.exists_max_image _ locks.rank s.finite_waits ⟨l, t, isWaiting⟩
  -- Whoever has this lock is not at its end, and waits for one above it.
  have isSet : (holder top).isSome = true := (inv.word top).symm.trans waitsTop.2.2
  obtain ⟨v, isHolder⟩ := Option.isSome_iff_exists.1 isSet
  have member : top ∈ (s.thread v).hold (held v) := (inv.holder top v trivial).1 isHolder
  have holderRuns : (s.thread v).code ≠ .done := by
    intro isDone
    have keeps := inv.keeps v
    rw [isDone] at keeps
    rw [keeps.1, LockThread.hold, isDone] at member
    exact absurd member List.not_mem_nil
  obtain ⟨next, waitsNext⟩ := waits v holderRuns
  exact absurd (inv.rank_lt waitsNext member) (not_lt.2 (above next ⟨v, waitsNext⟩))

omit [DecidableEq τ] [DecidableEq ℓ] [Finite τ] in
/-- Where all threads are at their ends, all locks are free. -/
theorem LockInv.quiet (inv : LockInv locks s held holder) (ended : ∀ t, (s.thread t).code = .done) :
    s.Quiet locks.owned := by
  have ready : ∀ t, (s.thread t).phase = .ready := fun t =>
    (inv.phase t).ready (by simp [ended t]) (by simp [ended t]) (by simp [ended t])
  have nothing : ∀ t, held t = [] ∧ (s.thread t).flag = false := by
    intro t
    have keeps := inv.keeps t
    rw [ended t] at keeps
    exact keeps
  constructor
  · intro l
    rw [inv.word l]
    cases isHolder : holder l with
    | none => rfl
    | some t =>
      have member : l ∈ (s.thread t).hold (held t) := (inv.holder l t trivial).1 isHolder
      rw [LockThread.hold_of_ready (ready t), (nothing t).1] at member
      exact absurd member List.not_mem_nil
  · intro l isOwned
    cases isOwner : s.owner l with
    | none => rfl
    | some t =>
      have member : l ∈ (s.thread t).own (held t) := (inv.owner l t isOwned).1 isOwner
      rw [LockThread.own_of_ready (ready t), (nothing t).1] at member
      exact absurd member List.not_mem_nil
  · intro t
    calc s.thread t = ⟨(s.thread t).flag, (s.thread t).code, (s.thread t).phase⟩ := rfl
      _ = ⟨false, .done, .ready⟩ := by rw [(nothing t).2, ended t, ready t]

end Progress

section Completion

variable {κ : Type} [LinearOrder κ] [Fintype τ] {locks : LockOrder ℓ κ} {s s' : LockState τ ℓ}
  {x : LockThread ℓ} {t : τ}

/-- The steps that are left to all threads. -/
def LockState.load (s : LockState τ ℓ) : Nat := ∑ t, (s.thread t).load

omit [DecidableEq ℓ] in
/-- A thread that comes nearer to its end takes the others along. -/
theorem LockState.load_lt (thread : s'.thread = Function.update s.thread t x)
    (lower : x.load < (s.thread t).load) :
    s'.load < s.load := by
  have now : s'.thread t = x := by rw [thread, Function.update_self]
  apply Finset.sum_lt_sum
  · intro v _
    by_cases isT : v = t
    · rw [isT, now]
      exact lower.le
    · rw [thread, Function.update_of_ne isT]
  · exact ⟨t, Finset.mem_univ t, by rwa [now]⟩

/-- From every reachable state, steps of the threads alone come to one where all are at their ends and all
locks are free. -/
theorem exists_run_to_quiet {codeOf : τ → ι → LockCode ℓ}
    (keeps : ∀ t call, (codeOf t call).Keeps locks [] false [] false)
    (reachable : (lockMachine locks.owned codeOf).Reachable s) :
    ∃ as s', (∀ a ∈ as, ∃ t choice, a = .step t choice) ∧ (lockMachine locks.owned codeOf).exec s as = some s' ∧
      s'.Quiet locks.owned := by
  have progress : ∀ s : LockState τ ℓ, (lockMachine locks.owned codeOf).Reachable s → ¬ s.Quiet locks.owned →
      ∃ a s', (∃ t choice, a = .step t choice) ∧ (lockMachine locks.owned codeOf).step s a = some s' ∧
        s'.load < s.load := by
    intro s reachable notQuiet
    obtain ⟨held, holder, inv⟩ := lockInv_of_reachable keeps reachable
    have running : ∃ t, (s.thread t).code ≠ .done := by
      by_contra noneRuns
      exact notQuiet (inv.quiet fun t => not_not.1 fun isRunning => noneRuns ⟨t, isRunning⟩)
    obtain ⟨t, isRunning, notWaits⟩ := inv.exists_running running
    obtain ⟨next, x, _, _, stepped, thread, _, lower⟩ := inv.advances isRunning false
    exact ⟨.step t false, next, ⟨t, false, rfl⟩, stepped, LockState.load_lt thread (lower notWaits)⟩
  exact Machine.exists_run_to progress reachable

end Completion

end CilkL
