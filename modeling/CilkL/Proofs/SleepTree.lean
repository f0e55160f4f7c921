/-
Module: CilkL.Proofs.SleepTree
Layer: Proofs
Purpose: No system worker sleeps through a message to run. The workers form a tree, so each has one sender,
  and between the store and the post of a message nothing else touches its signal node; whoever finds the
  run word clear after that has a later message to wait. Whoever searches for work has finished telling
  its children to run.
Imports: CilkL.Runtime.SleepTree, Mathlib.Logic.Relation
Trusted boundary: none
Main exports: NotifyTree, notifyTree, SleepInv, sleepInv_of_reachable, SleepTreeSound,
  sleep_tree_sound, awake_child_of_searching
Open obligations: none
-/
import CilkL.Runtime.SleepTree
import Mathlib.Logic.Relation

namespace CilkL

/-- A worker's children are the workers `2 n` and `2 n + 1`, as far as these exist. -/
theorem mem_notifiedChildren {P n c : Nat} (worker : 1 ≤ n) :
    c ∈ notifiedChildren P n ↔ (c = 2 * n ∨ c = 2 * n + 1) ∧ c < P := by
  simp only [notifiedChildren]
  split
  · split <;> simp <;> omega
  · simp
    omega

/-- The system workers are a tree under `notify_children`: worker 1 is the root, every other worker is the
child of one worker and is notified once by it, and the root reaches all. -/
structure NotifyTree (P : Nat) : Prop where
  among : ∀ n, 1 ≤ n → ∀ c ∈ notifiedChildren P n, 1 ≤ c ∧ c < P
  root : ∀ n, 1 ≤ n → 1 ∉ notifiedChildren P n
  parent : ∀ c, 2 ≤ c → c < P → ∃! n, (1 ≤ n ∧ n < P) ∧ c ∈ notifiedChildren P n
  once : ∀ n, (notifiedChildren P n).Nodup
  connected : ∀ c, 1 ≤ c → c < P → Relation.ReflTransGen (fun n c => c ∈ notifiedChildren P n) 1 c

/-- A worker is the child of one worker only. -/
theorem parent_unique {P n n' c : Nat} (worker : 1 ≤ n) (worker' : 1 ≤ n') (mem : c ∈ notifiedChildren P n)
    (mem' : c ∈ notifiedChildren P n') : n = n' := by
  rw [mem_notifiedChildren worker] at mem
  rw [mem_notifiedChildren worker'] at mem'
  omega

/-- The root is nobody's child. -/
theorem root_not_child {P n : Nat} (worker : 1 ≤ n) : 1 ∉ notifiedChildren P n := by
  rw [mem_notifiedChildren worker]
  omega

/-- The root reaches every worker, by halving. -/
theorem reached_from_root {P c : Nat} (worker : 1 ≤ c) (exists_ : c < P) :
    Relation.ReflTransGen (fun n c => c ∈ notifiedChildren P n) 1 c := by
  induction c using Nat.strongRecOn with
  | _ c ih =>
    by_cases root : c = 1
    · subst root
      exact .refl
    · have above := ih (c / 2) (by omega) (by omega) (by omega)
      refine .tail above ?_
      rw [mem_notifiedChildren (by omega)]
      omega

/-- The system workers are a tree. -/
theorem notifyTree (P : Nat) : NotifyTree P where
  among := by
    intro n worker c mem
    rw [mem_notifiedChildren worker] at mem
    omega
  root := fun n worker => root_not_child worker
  parent := by
    intro c low high
    refine ⟨c / 2, ⟨⟨by omega, by omega⟩, ?_⟩, ?_⟩
    · rw [mem_notifiedChildren (by omega)]
      omega
    · rintro n ⟨⟨worker, -⟩, mem⟩
      rw [mem_notifiedChildren worker] at mem
      omega
  once := by
    intro n
    simp only [notifiedChildren]
    split
    · split <;> simp
    · simp
  connected := fun c worker exists_ => reached_from_root worker exists_

/-- The children a worker has still to tell. -/
@[simp, grind]
def SleepPhase.rest : SleepPhase → List Nat
  | .searching => []
  | .notifyWait rest => rest
  | .testing => []
  | .waiting => []
  | .notifyRun rest _ => rest
  | .exited => []

/-- The worker has told the child to run since it last told it to wait. -/
@[simp, grind]
def SleepPhase.hasTold (c : Nat) : SleepPhase → Prop
  | .searching => True
  | .notifyWait _ => False
  | .testing => False
  | .waiting => False
  | .notifyRun rest _ => c ∉ rest
  | .exited => True

/-- The invariant of the machine of `P` workers. -/
structure SleepInv (P : Nat) (s : SleepTree) : Prop where
  /-- Only children are told. -/
  pending : ∀ w, 1 ≤ w → ∀ c ∈ (s.phase w).rest, c ∈ notifiedChildren P w
  /-- Between the store and the post the run word stays set. -/
  stored : ∀ w c rest, 1 ≤ w → s.phase w = .notifyRun (c :: rest) true → s.run c = true
  /-- So it does for the root. -/
  storedRoot : s.waking = true → s.run 1 = true
  /-- A message to run is in the run word. -/
  delivered : ∀ c, s.message c = some .run → s.run c = true
  /-- Whoever reached the semaphore before the message finds it posted. -/
  posted : ∀ c, s.message c = some .run → s.phase c = .waiting → 0 < s.sem c
  /-- A child that a worker has told to run has not been told anything later. -/
  passed : ∀ w, 1 ≤ w → ∀ c ∈ notifiedChildren P w, (s.phase w).hasTold c → s.told w c = some .run
  /-- A child hears from its parent only. -/
  heard : ∀ w, 1 ≤ w → ∀ c ∈ notifiedChildren P w, s.message c = s.told w c

namespace SleepTree

variable (s : SleepTree) (w sender c w' c' : Nat) (phase : SleepPhase) (msg : SignalMsg)

@[simp, grind =] theorem phase_setPhase :
    (s.setPhase w phase).phase w' = if w' = w then phase else s.phase w' := by
  simp [setPhase, Function.update_apply]

@[simp, grind =] theorem run_setPhase : (s.setPhase w phase).run c' = s.run c' := rfl

@[simp, grind =] theorem sem_setPhase : (s.setPhase w phase).sem c' = s.sem c' := rfl

@[simp, grind =] theorem waking_setPhase : (s.setPhase w phase).waking = s.waking := rfl

@[simp, grind =] theorem told_setPhase : (s.setPhase w phase).told w' c' = s.told w' c' := rfl

@[simp, grind =] theorem message_setPhase : (s.setPhase w phase).message c' = s.message c' := rfl

@[simp, grind =] theorem told_sent :
    (s.sent sender c msg).told w' c' = if w' = sender ∧ c' = c then some msg else s.told w' c' := by
  by_cases same : w' = sender
  · subst same
    simp [sent, Function.update_apply]
  · simp [sent, same]

@[simp, grind =] theorem message_sent :
    (s.sent sender c msg).message c' = if c' = c then some msg else s.message c' := by
  simp [sent, Function.update_apply]

@[simp, grind =] theorem run_sent : (s.sent sender c msg).run c' = s.run c' := rfl

@[simp, grind =] theorem sem_sent : (s.sent sender c msg).sem c' = s.sem c' := rfl

@[simp, grind =] theorem phase_sent : (s.sent sender c msg).phase w' = s.phase w' := rfl

@[simp, grind =] theorem waking_sent : (s.sent sender c msg).waking = s.waking := rfl

@[simp, grind =] theorem run_msgWait :
    (s.msgWait sender c).run c' = if c' = c then false else s.run c' := by
  simp [msgWait, Function.update_apply]

@[simp, grind =] theorem run_msgRunStore :
    (s.msgRunStore c).run c' = if c' = c then true else s.run c' := by
  simp [msgRunStore, Function.update_apply]

@[simp, grind =] theorem sem_msgRunPost :
    (s.msgRunPost sender c).sem c' = if c' = c then s.sem c + 1 else s.sem c' := by
  simp [msgRunPost, Function.update_apply]

@[simp, grind =] theorem phase_msgWait : (s.msgWait sender c).phase w' = s.phase w' := rfl

@[simp, grind =] theorem sem_msgWait : (s.msgWait sender c).sem c' = s.sem c' := rfl

@[simp, grind =] theorem waking_msgWait : (s.msgWait sender c).waking = s.waking := rfl

@[simp, grind =] theorem phase_msgRunStore : (s.msgRunStore c).phase w' = s.phase w' := rfl

@[simp, grind =] theorem sem_msgRunStore : (s.msgRunStore c).sem c' = s.sem c' := rfl

@[simp, grind =] theorem waking_msgRunStore : (s.msgRunStore c).waking = s.waking := rfl

@[simp, grind =] theorem told_msgRunStore : (s.msgRunStore c).told w' c' = s.told w' c' := rfl

@[simp, grind =] theorem message_msgRunStore : (s.msgRunStore c).message c' = s.message c' := rfl

@[simp, grind =] theorem phase_msgRunPost : (s.msgRunPost sender c).phase w' = s.phase w' := rfl

@[simp, grind =] theorem run_msgRunPost : (s.msgRunPost sender c).run c' = s.run c' := rfl

@[simp, grind =] theorem waking_msgRunPost : (s.msgRunPost sender c).waking = s.waking := rfl

@[simp, grind =] theorem told_msgWait : (s.msgWait sender c).told w' c'
    = if w' = sender ∧ c' = c then some .wait else s.told w' c' := by
  simp [msgWait]

@[simp, grind =] theorem message_msgWait :
    (s.msgWait sender c).message c' = if c' = c then some .wait else s.message c' := by
  simp [msgWait]

@[simp, grind =] theorem told_msgRunPost : (s.msgRunPost sender c).told w' c'
    = if w' = sender ∧ c' = c then some .run else s.told w' c' := by
  simp [msgRunPost]

@[simp, grind =] theorem message_msgRunPost :
    (s.msgRunPost sender c).message c' = if c' = c then some .run else s.message c' := by
  simp [msgRunPost]

end SleepTree

variable {P : Nat} {s s' : SleepTree}

/-- Before the first message nothing has been sent, and every worker is in its start-up wait. -/
theorem sleepInv_initial : SleepInv P SleepTree.initial := by
  constructor <;> simp [SleepTree.initial]

/-- Two senders of a pending message to one worker are the same. -/
theorem SleepInv.sender_unique (inv : SleepInv P s) {w w' c : Nat} (worker : 1 ≤ w) (worker' : 1 ≤ w')
    (mem : c ∈ (s.phase w).rest) (mem' : c ∈ (s.phase w').rest) : w = w' :=
  parent_unique worker worker' (inv.pending w worker c mem) (inv.pending w' worker' c mem')

/-- The root is not told by a worker. -/
theorem SleepInv.root_not_pending (inv : SleepInv P s) {w : Nat} (worker : 1 ≤ w) :
    1 ∉ (s.phase w).rest :=
  fun mem => root_not_child worker (inv.pending w worker 1 mem)

/-- Telling a child to wait. -/
theorem SleepInv.msgWait {w c : Nat} {rest : List Nat} (inv : SleepInv P s) (worker : 1 ≤ w)
    (at_ : s.phase w = .notifyWait (c :: rest)) :
    SleepInv P ((s.msgWait w c).setPhase w (.notifyWait rest)) := by
  have mem : c ∈ (s.phase w).rest := by simp [at_]
  have child := inv.pending w worker c mem
  have unique : ∀ w', 1 ≤ w' → c ∈ (s.phase w').rest → w' = w :=
    fun w' worker' mem' => inv.sender_unique worker' worker mem' mem
  have notRoot : c ≠ 1 := fun root => inv.root_not_pending worker (root ▸ mem)
  constructor
  · intro w' worker'
    have before := inv.pending w' worker'
    grind -linarith
  · intro w' c' rest' worker' at'
    have before := inv.stored w' c' rest' worker'
    -- another worker about to post to the same child would be a second parent
    have other := unique w' worker'
    grind -linarith
  · have before := inv.storedRoot
    grind -linarith
  · intro c'
    have before := inv.delivered c'
    grind -linarith
  · intro c'
    have before := inv.posted c'
    grind -linarith
  · intro w' worker' c' child'
    have before := inv.passed w' worker' c' child'
    grind -linarith
  · intro w' worker' c' child'
    have before := inv.heard w' worker' c' child'
    have other : c ∈ notifiedChildren P w' → w' = w :=
      fun child' => parent_unique worker' worker child' child
    grind -linarith

/-- Setting the run word of a child. -/
theorem SleepInv.msgRunStore {w c : Nat} {rest : List Nat} (inv : SleepInv P s)
    (at_ : s.phase w = .notifyRun (c :: rest) false) :
    SleepInv P ((s.msgRunStore c).setPhase w (.notifyRun (c :: rest) true)) := by
  constructor
  · intro w' worker'
    have before := inv.pending w' worker'
    grind -linarith
  · intro w' c' rest' worker' at'
    have before := inv.stored w' c' rest' worker'
    grind -linarith
  · have before := inv.storedRoot
    grind -linarith
  · intro c'
    have before := inv.delivered c'
    grind -linarith
  · intro c'
    have before := inv.posted c'
    grind -linarith
  · intro w' worker' c' child'
    have before := inv.passed w' worker' c' child'
    grind -linarith
  · intro w' worker' c' child'
    simpa using inv.heard w' worker' c' child'

/-- Posting to a child whose run word is set. -/
theorem SleepInv.msgRunPost {w c : Nat} {rest : List Nat} (inv : SleepInv P s) (worker : 1 ≤ w)
    (at_ : s.phase w = .notifyRun (c :: rest) true) :
    SleepInv P ((s.msgRunPost w c).setPhase w (.notifyRun rest false)) := by
  have set_ := inv.stored w c rest worker at_
  have child := inv.pending w worker c (by simp [at_])
  constructor
  · intro w' worker'
    have before := inv.pending w' worker'
    grind -linarith
  · intro w' c' rest' worker' at'
    have before := inv.stored w' c' rest' worker'
    grind -linarith
  · have before := inv.storedRoot
    grind -linarith
  · intro c'
    have before := inv.delivered c'
    grind -linarith
  · intro c'
    have before := inv.posted c'
    grind -linarith
  · intro w' worker' c' child'
    have before := inv.passed w' worker' c' child'
    grind -linarith
  · intro w' worker' c' child'
    have before := inv.heard w' worker' c' child'
    have other : c ∈ notifiedChildren P w' → w' = w :=
      fun child' => parent_unique worker' worker child' child
    grind -linarith

/-- A worker that goes on without a message keeps the invariant when it only goes to the semaphore on a
clear run word, tells only its children, and leaves no child untold. -/
theorem SleepInv.setPhase {w : Nat} {phase : SleepPhase} (inv : SleepInv P s)
    (pending : ∀ c ∈ phase.rest, c ∈ notifiedChildren P w)
    (unposted : ∀ c rest, phase ≠ .notifyRun (c :: rest) true)
    (clear : phase = .waiting → s.run w = false)
    (told : ∀ c ∈ notifiedChildren P w, phase.hasTold c → (s.phase w).hasTold c) :
    SleepInv P (s.setPhase w phase) := by
  constructor
  · intro w' worker'
    have before := inv.pending w' worker'
    grind -linarith
  · intro w' c' rest' worker' at'
    have before := inv.stored w' c' rest' worker'
    grind -linarith
  · exact inv.storedRoot
  · exact inv.delivered
  · intro c'
    have before := inv.posted c'
    have set_ := inv.delivered c'
    grind -linarith
  · intro w' worker' c' child'
    have before := inv.passed w' worker' c' child'
    grind -linarith
  · exact inv.heard

/-- What the invariant is about does not depend on the count of user workers or on `work_done`. -/
theorem SleepInv.congr (inv : SleepInv P s) {Q : Nat} {work_done : Bool} :
    SleepInv P { s with Q := Q, work_done := work_done } :=
  ⟨inv.pending, inv.stored, inv.storedRoot, inv.delivered, inv.posted, inv.passed, inv.heard⟩

/-- `wake_runtime` up to its post. -/
theorem SleepInv.wakeStore (inv : SleepInv P s) : SleepInv P { s.msgRunStore 1 with waking := true } := by
  constructor <;> dsimp only
  · intro w worker
    simpa using inv.pending w worker
  · intro w c rest worker at_
    have before := inv.stored w c rest worker
    grind -linarith
  · simp
  · intro c
    have before := inv.delivered c
    grind -linarith
  · intro c
    simpa using inv.posted c
  · intro w worker c child
    simpa using inv.passed w worker c child
  · intro w worker c child
    simpa using inv.heard w worker c child

/-- The post of `wake_runtime`. -/
theorem SleepInv.wakePost (inv : SleepInv P s) (waking : s.waking = true) :
    SleepInv P { s.msgRunPost 0 1 with waking := false } := by
  have set_ := inv.storedRoot waking
  constructor <;> dsimp only
  · intro w worker
    simpa using inv.pending w worker
  · intro w c rest worker
    simpa using inv.stored w c rest worker
  · simp
  · intro c
    have before := inv.delivered c
    grind -linarith
  · intro c
    have before := inv.posted c
    grind -linarith
  · intro w worker c child
    have before := inv.passed w worker c child
    grind -linarith
  · intro w worker c child
    have before := inv.heard w worker c child
    have notRoot : 1 ∉ notifiedChildren P w := root_not_child worker
    grind -linarith

/-- `sleep_runtime`, which waits for the lock that `wake_runtime` holds. -/
theorem SleepInv.sleepStore (inv : SleepInv P s) (idle : s.waking = false) :
    SleepInv P (s.msgWait 0 1) := by
  constructor
  · intro w worker
    simpa using inv.pending w worker
  · intro w c rest worker at_
    have before := inv.stored w c rest worker
    have notRoot := inv.root_not_pending worker
    grind -linarith
  · simp [idle]
  · intro c
    have before := inv.delivered c
    grind -linarith
  · intro c
    have before := inv.posted c
    grind -linarith
  · intro w worker c child
    have before := inv.passed w worker c child
    grind -linarith
  · intro w worker c child
    have before := inv.heard w worker c child
    have notRoot : 1 ∉ notifiedChildren P w := root_not_child worker
    grind -linarith

/-- A worker takes a post and goes back to test the run word. -/
theorem SleepInv.consume {w : Nat} (inv : SleepInv P s) :
    SleepInv P ({ s with sem := Function.update s.sem w (s.sem w - 1) }.setPhase w .testing) := by
  constructor
  · intro w' worker'
    have before := inv.pending w' worker'
    grind -linarith
  · intro w' c rest worker' at'
    have before := inv.stored w' c rest worker'
    grind -linarith
  · exact inv.storedRoot
  · exact inv.delivered
  · intro c
    have before := inv.posted c
    by_cases same : c = w
    · simp [same]
    · simpa [same] using before
  · intro w' worker' c child
    have before := inv.passed w' worker' c child
    grind -linarith
  · exact inv.heard

/-- A step of a worker keeps the invariant. -/
theorem SleepInv.workerStep (inv : SleepInv P s) {w : Nat} {next_frame failures : Bool} (worker : 1 ≤ w)
    (taken : sleepWorkerStep P w next_frame failures s = some s') : SleepInv P s' := by
  unfold sleepWorkerStep at taken
  split at taken
  case h_1 at_ =>
    split at taken <;> obtain rfl := Option.some.inj taken
    · exact inv
    · exact inv.setPhase (fun c mem => mem) (by simp) (by simp) (by simp)
    · exact inv.setPhase (by simp) (by simp) (by simp) (by simp [at_])
  case h_2 at_ =>
    obtain rfl := Option.some.inj taken
    exact inv.setPhase (by simp) (by simp) (by simp) (by simp)
  case h_3 c rest at_ =>
    obtain rfl := Option.some.inj taken
    exact inv.msgWait worker at_
  case h_4 at_ =>
    split at taken <;> obtain rfl := Option.some.inj taken
    · exact inv.setPhase (fun c mem => mem) (by simp) (by simp) (fun c child told => absurd child told)
    · rename_i clear
      exact inv.setPhase (by simp) (by simp) (fun _ => by simpa using clear) (by simp)
  case h_5 at_ =>
    split at taken
    · cases taken
    · obtain rfl := Option.some.inj taken
      exact inv.consume
  case h_6 at_ =>
    obtain rfl := Option.some.inj taken
    exact inv.setPhase (by simp) (by simp) (by simp) (by simp [at_])
  case h_7 c rest at_ =>
    obtain rfl := Option.some.inj taken
    exact inv.msgRunStore at_
  case h_8 c rest at_ =>
    obtain rfl := Option.some.inj taken
    exact inv.msgRunPost worker at_
  case h_9 => cases taken

/-- A step keeps the invariant. -/
theorem SleepInv.step (inv : SleepInv P s) {label : SleepLabel}
    (taken : sleepStep P s label = some s') : SleepInv P s' := by
  cases label with
  | enter =>
    simp only [sleepStep] at taken
    split at taken
    · cases taken
    · split at taken <;> obtain rfl := Option.some.inj taken
      · exact inv.wakeStore.congr
      · exact inv.congr
  | wakePost =>
    simp only [sleepStep] at taken
    split at taken
    · rename_i waking
      obtain rfl := Option.some.inj taken
      exact inv.wakePost waking
    · cases taken
  | leave =>
    simp only [sleepStep] at taken
    split at taken
    · cases taken
    · rename_i inside
      have idle : s.waking = false := by simp_all
      split at taken <;> obtain rfl := Option.some.inj taken
      · exact (inv.sleepStore idle).congr
      · exact inv.congr
  | stop =>
    obtain rfl := Option.some.inj taken
    exact inv.congr
  | worker w next_frame failures =>
    simp only [sleepStep] at taken
    split at taken
    · rename_i worker
      exact inv.workerStep worker.1 taken
    · cases taken

/-- The invariant holds in every reachable state. -/
theorem sleepInv_of_reachable (reachable : (sleepMachine P).Reachable s) : SleepInv P s := by
  refine reachable.invariant ?_ ?_
  · rintro s rfl
    exact sleepInv_initial
  · intro s label s' _ inv taken
    exact inv.step taken

/-- Whoever is outside its wait section told each of its children last to run, and whoever was told last to
run is not blocked. -/
structure SleepTreeSound (P : Nat) (s : SleepTree) : Prop where
  passed_on : ∀ w, 1 ≤ w → w < P → (s.phase w).inWaitSection = false →
    ∀ c ∈ notifiedChildren P w, s.told w c = some .run
  awake : ∀ w, 1 ≤ w → w < P → s.message w = some .run → ¬ (s.phase w = .waiting ∧ s.sem w = 0)

/-- The invariant gives both parts. -/
theorem SleepInv.sound (inv : SleepInv P s) : SleepTreeSound P s := by
  constructor
  · intro w worker _ outside c child
    apply inv.passed w worker c child
    cases at_ : s.phase w <;> simp_all
  · rintro w - - last ⟨blocked, empty⟩
    have posted := inv.posted w last blocked
    omega

/-- The system workers are a tree, and no message to run is lost in it. -/
theorem sleep_tree_sound (P : Nat) :
    NotifyTree P ∧ ∀ s, (sleepMachine P).Reachable s → SleepTreeSound P s :=
  ⟨notifyTree P, fun _ reachable => (sleepInv_of_reachable reachable).sound⟩

/-- While a worker is outside its wait section none of its children is blocked. -/
theorem awake_child_of_searching (reachable : (sleepMachine P).Reachable s) {w c : Nat} (worker : 1 ≤ w)
    (system : w < P) (outside : (s.phase w).inWaitSection = false) (child : c ∈ notifiedChildren P w) :
    ¬ (s.phase c = .waiting ∧ s.sem c = 0) := by
  have inv := sleepInv_of_reachable reachable
  have among := (notifyTree P).among w worker c child
  have told := inv.sound.passed_on w worker system outside c child
  exact inv.sound.awake c among.1 among.2 ((inv.heard w worker c child).trans told)

/-- The root is woken by the first user worker and wakes worker 2, which finds a post. -/
example : (((sleepMachine 3).after SleepTree.initial
    [.worker 2 false false, .enter, .wakePost, .worker 1 false false, .worker 1 false false,
      .worker 1 false false, .worker 1 false false]).phase 1 = .searching) := by
  decide

end CilkL
