/-
Module: CilkL.Proofs.ReplayWait
Layer: Proofs
Purpose: The loop that waits for a steal compares where the fields of the deque are, not what they hold:
  `tail` comes before `head` in every deque, so the loop ends when its condition is evaluated first. The
  function waits for the steal exactly when the frame has been stolen by then.
Imports: CilkL.Proofs.RecordReplay, CilkL.Runtime.ReplayWait
Trusted boundary: none
Main exports: ActiveDeque.Stolen, WaitsForSteal, tailBelowHead_dequeSwitch, replay_waits_for_steal,
  loop_ends_before_steal
Open obligations: none
-/
import CilkL.Proofs.RecordReplay
import CilkL.Runtime.ReplayWait

namespace CilkL

/-- The frame at the tail has been stolen: the head has passed `tail - 1`. -/
def ActiveDeque.Stolen (d : ActiveDeque) : Prop := (d.tail : Int) - 1 < d.head

instance ActiveDeque.Stolen.decidable (d : ActiveDeque) : Decidable d.Stolen :=
  inferInstanceAs (Decidable (_ < _))

/-- The function waits for the recorded steal and no longer: it has left its loop only when the frame was
stolen, and leaves it then; the entry is consumed once, after the loop; and it neither waits nor consumes
an entry when the current one does not match. -/
structure WaitsForSteal (call : WaitCall) (s : ReplayWait) : Prop where
  stolen : call.matches = true → s.phase = .left ∨ s.phase = .returned → s.deque.Stolen
  noLonger : s.phase = .looping → s.deque.Stolen →
    ∀ s', replayWaitStep call s .evaluate = some s' → s'.phase = .left
  consumed : s.replay_list_entry =
    if call.matches = true ∧ s.phase = .returned then
      nextEntry call.replay_list_root call.replay_list_entry
    else call.replay_list_entry
  unmatched : call.matches = false → s.phase = .entered ∨ s.phase = .returned

/-- The condition of the loop holds whatever the deque holds. -/
theorem tailBelowHead_dequeSwitch (d : ActiveDeque) : d.dequeSwitch.tailBelowHead = true := by
  obtain ⟨low, high⟩ := d.allocated
  have size : pointerSize.toNat = 8 := rfl
  have above : (d.address + pointerSize).toNat = d.address.toNat + 8 := by
    rw [UInt64.toNat_add, size, Nat.mod_eq_of_lt (by omega)]
  have below : (d.address - pointerSize).toNat = d.address.toNat - 8 := by
    rw [UInt64.toNat_sub_of_le _ _ (UInt64.le_iff_toNat_le.mpr low), size]
  rw [TailAndHead.tailBelowHead, decide_eq_true_eq, UInt64.lt_iff_toNat_lt]
  simp only [ActiveDeque.dequeSwitch, ActiveDeque.tailAddress, ActiveDeque.headAddress, above, below]
  omega

/-- The loop ends when its condition is evaluated, whatever the thieves have done. -/
theorem evaluate_leaves {call : WaitCall} {s s' : ReplayWait}
    (taken : replayWaitStep call s .evaluate = some s') :
    s.phase = .looping ∧ s' = { s with phase := .left } := by
  simp only [replayWaitStep, tailBelowHead_dequeSwitch, if_true, Option.ite_none_right_eq_some] at taken
  exact ⟨taken.1, (Option.some.inj taken.2).symm⟩

/-- What holds of the phases and the cursor in every run. -/
structure WaitInv (call : WaitCall) (s : ReplayWait) : Prop where
  consumed : s.replay_list_entry =
    if call.matches = true ∧ s.phase = .returned then
      nextEntry call.replay_list_root call.replay_list_entry
    else call.replay_list_entry
  unmatched : call.matches = false → s.phase = .entered ∨ s.phase = .returned

theorem WaitInv.of_step {call : WaitCall} {s s' : ReplayWait} {label : WaitLabel} (inv : WaitInv call s)
    (taken : replayWaitStep call s label = some s') : WaitInv call s' := by
  cases label with
  | enter =>
    simp only [replayWaitStep, Option.ite_none_right_eq_some, Option.some.injEq] at taken
    obtain ⟨entered, rfl⟩ := taken
    have before := inv.consumed
    rw [entered] at before
    cases isMatch : call.matches with
    | true => exact ⟨by simpa using before, by simp [isMatch]⟩
    | false => exact ⟨by simpa [isMatch] using before, by simp⟩
  | evaluate =>
    obtain ⟨looping, rfl⟩ := evaluate_leaves taken
    have before := inv.consumed
    rw [looping] at before
    refine ⟨by simpa using before, fun noMatch => ?_⟩
    simpa [looping] using inv.unmatched noMatch
  | consume =>
    simp only [replayWaitStep, Option.ite_none_right_eq_some, Option.some.injEq] at taken
    obtain ⟨left, rfl⟩ := taken
    have isMatch : call.matches = true := by
      by_contra noMatch
      simpa [left] using inv.unmatched (by simpa using noMatch)
    have before := inv.consumed
    rw [left] at before
    exact ⟨by simpa [isMatch] using congrArg (nextEntry call.replay_list_root) before,
      fun _ => .inr rfl⟩
  | steal =>
    simp only [replayWaitStep, Option.ite_none_right_eq_some, Option.some.injEq] at taken
    obtain ⟨-, rfl⟩ := taken
    exact ⟨inv.consumed, inv.unmatched⟩

theorem WaitInv.of_start {call : WaitCall} {s : ReplayWait} (initial : (replayWaitMachine call).start s) :
    WaitInv call s := by
  obtain rfl : s = _ := initial
  exact ⟨by simp, fun _ => .inl rfl⟩

theorem waitInv_reachable {call : WaitCall} {s : ReplayWait}
    (reachable : (replayWaitMachine call).Reachable s) : WaitInv call s :=
  reachable.invariant (fun _ initial => .of_start initial) fun _ _ _ _ inv taken => inv.of_step taken

/-- All but the first clause hold in every run. -/
theorem WaitInv.waitsForSteal_iff {call : WaitCall} {s : ReplayWait} (inv : WaitInv call s) :
    WaitsForSteal call s ↔
      (call.matches = true → s.phase = .left ∨ s.phase = .returned → s.deque.Stolen) := by
  refine ⟨WaitsForSteal.stolen, fun stolen => ⟨stolen, fun _ _ s' taken => ?_, inv.consumed,
    inv.unmatched⟩⟩
  rw [(evaluate_leaves taken).2]

/-- A steal does not undo another one. -/
theorem stolen_of_step {call : WaitCall} {s s' : ReplayWait} {label : WaitLabel}
    (stolen : s.deque.Stolen) (taken : replayWaitStep call s label = some s') : s'.deque.Stolen := by
  cases label with
  | enter | consume =>
    simp only [replayWaitStep, Option.ite_none_right_eq_some, Option.some.injEq] at taken
    rw [← taken.2]
    exact stolen
  | evaluate =>
    rw [(evaluate_leaves taken).2]
    exact stolen
  | steal =>
    simp only [replayWaitStep, Option.ite_none_right_eq_some, Option.some.injEq] at taken
    rw [← taken.2]
    simp only [ActiveDeque.Stolen] at stolen ⊢
    omega

/-- Waiting for the recorded steal. In every run whose evaluations of the loop's condition find the frame
at the tail stolen, the function waits for the steal and no longer; and an evaluation leads to a state
where it does exactly when the frame is stolen by then. A return without a match never evaluates it. -/
theorem replay_waits_for_steal (call : WaitCall) :
    (∀ s, (replayWaitMachine call).GuardedRun
        (fun s label => label = .evaluate → s.deque.Stolen) s → WaitsForSteal call s) ∧
    ∀ s s', (replayWaitMachine call).Reachable s → replayWaitStep call s .evaluate = some s' →
      (WaitsForSteal call s' ↔ s.deque.Stolen) := by
  constructor
  · intro s run
    rw [(waitInv_reachable run.reachable).waitsForSteal_iff]
    suffices WaitInv call s ∧ (call.matches = true → s.phase = .left ∨ s.phase = .returned →
        s.deque.Stolen) from this.2
    refine @Machine.GuardedRun.invariant _ _ _ _ (fun s => WaitInv call s ∧ (call.matches = true →
      s.phase = .left ∨ s.phase = .returned → s.deque.Stolen)) ?_ ?_ _ run
    · intro s initial
      obtain rfl : s = _ := initial
      exact ⟨.of_start rfl, by simp⟩
    · intro s label s' before allowed taken
      obtain ⟨inv, stolen⟩ := before
      have inv' := inv.of_step taken
      refine ⟨inv', fun isMatch out => ?_⟩
      refine stolen_of_step ?_ taken
      cases label with
      | evaluate => exact allowed rfl
      | enter =>
        simp only [replayWaitMachine, replayWaitStep, isMatch, if_true, Option.ite_none_right_eq_some,
          Option.some.injEq] at taken
        rw [← taken.2] at out
        simp at out
      | consume =>
        simp only [replayWaitMachine, replayWaitStep, Option.ite_none_right_eq_some] at taken
        exact stolen isMatch (.inl taken.1)
      | steal =>
        simp only [replayWaitMachine, replayWaitStep, Option.ite_none_right_eq_some,
          Option.some.injEq] at taken
        rw [← taken.2] at out
        exact stolen isMatch out
  · intro s s' reachable taken
    have inv := waitInv_reachable reachable
    rw [(inv.of_step taken).waitsForSteal_iff]
    obtain ⟨looping, rfl⟩ := evaluate_leaves taken
    have isMatch : call.matches = true := by
      by_contra noMatch
      simpa [looping] using inv.unmatched (by simpa using noMatch)
    simp [isMatch]

/-- A function returns to a parent that was stolen when the log was recorded and is not stolen yet. -/
def returnTooEarly : WaitCall where
  record_or_replay := .replayLog
  replay_list_root := [⟨[1], .orphaned, 0⟩, ⟨[], .last, 0⟩]
  replay_list_entry := 0
  parent := [1]
  deque := { address := 4096, tail := 1, head := 0, allocated := by decide }

/-- The function does not wait: it has consumed the entry and returned, and nobody has stolen the frame. -/
theorem loop_ends_before_steal :
    ¬ ∀ s, (replayWaitMachine returnTooEarly).Reachable s → WaitsForSteal returnTooEarly s := by
  intro always
  have waited := always _ (.after (.start rfl) [.enter, .evaluate, .consume])
  exact absurd (waited.stolen (by decide) (by decide)) (by decide)

end CilkL
