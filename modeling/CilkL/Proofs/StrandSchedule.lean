/-
Module: CilkL.Proofs.StrandSchedule
Layer: Proofs
Purpose: The pedigree of a strand does not depend on the schedule while the helpers that its nodes are in
  are there; ranks never depend on it. Two things go wrong. A future may be unfinished when a function that
  it was created under has returned, and then its pedigree goes through a helper that has left. And the exit
  frame is taken by worker 0 with the rank that worker 0 happens to have.
Imports: CilkL.Proofs.StrandPedigree
Trusted boundary: none
Main exports: StartsUnderHelpers, pedigree_schedule_independent, pedigree_schedule_dependent, ExitRankKept,
  leaf_rank_serial, leaf_rank_stale
Open obligations: none
-/
import CilkL.Proofs.StrandPedigree

namespace CilkL

open StrandState

variable {W : Type}

section Claims

variable [DecidableEq W]

/-- No strand is started whose pedigree goes through a helper that has left. -/
def StartsUnderHelpers (worker0 : W) (s : StrandState W) (label : StrandLabel W) : Prop :=
  ∀ s' ∈ strandStep worker0 s label, ∀ x ∈ s'.started, s'.HelpersLive x

instance (worker0 : W) (s : StrandState W) (label : StrandLabel W) :
    Decidable (StartsUnderHelpers worker0 s label) :=
  inferInstanceAs (Decidable (∀ s' ∈ strandStep worker0 s label, ∀ x ∈ s'.started, _))

/-- The strand that has just been started is on a worker, and what is read there as its pedigree is the one
of that strand in the serial execution. -/
def StartsWithSerialPedigree (program : StrandCode) (rank root : UInt64) (s : StrandState W) : Prop :=
  ∀ x, s.started = some x → ∃ w, (s.frame x).place = .running w ∧
    (∃ pedigree, ChainIs s.node (s.ped w) pedigree) ∧ ∀ pedigree, ChainIs s.node (s.ped w) pedigree ↔
      ((s.frame x).path, pedigree) ∈ serialStrands program rank [root]

/-- Pedigrees do not depend on the schedule while no strand starts under a helper that has left. -/
theorem pedigree_schedule_independent (worker0 : W) (program : StrandCode) (rank root : UInt64)
    (s : StrandState W)
    (run : (strandMachine worker0 program rank root).GuardedRun (StartsUnderHelpers worker0) s) :
    StartsWithSerialPedigree program rank root s := by
  have started_ (s : StrandState W) (inv : StrandInv ⟨program, rank, [root]⟩ root s)
      (live : ∀ x, s.started = some x → s.HelpersLive x)
      (running : ∀ x, s.started = some x → ∃ w, (s.frame x).place = .running w) :
      StartsWithSerialPedigree program rank root s := by
    intro x started
    obtain ⟨w, at_⟩ := running x started
    have sees := inv.sees at_ (live x started)
    obtain ⟨p, atP, -⟩ := inv.frameAt at_ (by simp)
    exact ⟨w, at_, ⟨p.rank :: p.chain, (sees _).mpr ((mem_serialStrands atP.1 _).mpr rfl)⟩, sees⟩
  have inv := strandInv_of_reachable run.reachable
  cases run with
  | start initial =>
      obtain ⟨memory, rfl⟩ := initial
      refine started_ _ inv ?_ ?_
      · intro x started
        obtain rfl : 0 = x := Option.some.inj started
        simp [StrandState.HelpersLive, StrandState.initial, noFrame]
      · intro x started
        obtain rfl : 0 = x := Option.some.inj started
        exact ⟨worker0, by simp [StrandState.initial]⟩
  | step before allowed taken =>
      refine started_ _ inv ?_ ?_
      · exact fun x started => allowed _ taken x started
      · exact fun x started => running_of_started taken started

/-- A function spawns one that creates a future and returns while the future waits in a `get`, syncs, and
spawns again. -/
def lateFuture : StrandCode :=
  .spawn (.call (.call (.future (.call (.get (.spawn .ret (.sync .ret))) .ret) .ret) .ret) .ret)
    (.sync (.spawn .ret (.sync .ret)))

/-- The schedule on two workers up to the second spawn: the future suspends, its deque is stolen empty, and
the outermost function is past its first sync on its own stack. -/
def lateFutureSpawns : List (StrandLabel Bool) :=
  [.detach false (.other 1), .call false, .call false, .detach false (.other 2), .call false,
    .suspend false, .steal false 0, .setupForExecution false, .sync false, .steal false 3,
    .setupForExecution false, .return_ false, .return_ false, .return_ false, .setupForExecution false,
    .sync false]

/-- The schedule goes on with a second helper where the first one was, and then with the future. -/
def lateFutureRun : List (StrandLabel Bool) :=
  lateFutureSpawns ++
    [.detach false (.other 1), .resume true 5, .get true, .detach true (.other 3)]

/-- The outermost function of a program on worker 0 of two, with a leaf of rank 5 under a root of rank 3. -/
def strandsOnTwo (program : StrandCode) : StrandState Bool :=
  .initial false program 5 3 fun _ => { rank := 0, parent := none }

theorem strandsOnTwo_start (program : StrandCode) :
    (strandMachine false program 5 3).start (strandsOnTwo program) := ⟨_, rfl⟩

/-- While the first helper is there, every strand has its serial pedigree. -/
theorem pedigree_schedule_independent_late :
    StartsWithSerialPedigree lateFuture 5 3
      ((strandMachine false lateFuture 5 3).after (strandsOnTwo lateFuture) lateFutureSpawns) :=
  pedigree_schedule_independent false lateFuture 5 3 _
    (.after (.start (strandsOnTwo_start _)) lateFutureSpawns (by decide))

/-- The strand that the future spawns last reads the rank of the second helper in its pedigree. -/
theorem pedigree_schedule_dependent :
    ¬ ∀ s, (strandMachine false lateFuture 5 3).Reachable s → StartsWithSerialPedigree lateFuture 5 3 s := by
  intro independent
  have reached : (strandMachine false lateFuture 5 3).Reachable
      ((strandMachine false lateFuture 5 3).after (strandsOnTwo lateFuture) lateFutureRun) :=
    .after (.start (strandsOnTwo_start _)) _
  obtain ⟨w, at_, _, serial⟩ := independent _ reached 7 (by decide)
  obtain rfl : w = true := by
    revert at_
    cases w <;> decide
  have read := (serial [1, 1, 1, 7, 3]).mp (by decide)
  exact absurd read (by decide)

/-- Worker 0 takes the exit frame with the rank that the outermost function was suspended with. -/
def ExitRankKept (worker0 : W) (s : StrandState W) : StrandLabel W → Prop
  | .resumeReturn _ => (s.frame 0).place = .exiting (s.ped worker0).rank
  | _ => True

instance (worker0 : W) (s : StrandState W) : (label : StrandLabel W) →
    Decidable (ExitRankKept worker0 s label)
  | .resumeReturn _ => inferInstanceAs (Decidable (_ = _))
  | .detach _ _ | .call _ | .sync _ | .get _ | .return_ _ | .suspend _ | .resume _ _ | .steal _ _
  | .setupForExecution _ | .returnDirect | .suspendReturn _ | .write _ _ =>
    inferInstanceAs (Decidable True)

omit [DecidableEq W] in
/-- The rank at the end of the outermost function, when it is at its return. -/
theorem StrandInv.atReturn {start : StrandPosition} {root : UInt64} {s : StrandState W}
    (inv : StrandInv start root s) {p : StrandPosition} (atP : s.At start 0 p) (done : p.code = .ret) :
    p.rank = endRank start.code start.rank := by
  have ends := inv.outermost p atP
  rwa [done, endRank] at ends

theorem leaf_provablyGoodSteal (s : StrandState W) (w : W) (x : Nat) :
    (s.provablyGoodSteal w x).leaf = s.leaf := by
  unfold StrandState.provablyGoodSteal
  split <;> rfl

/-- What a step does to the leaf: nothing, or it stores the rank of worker 0 at the end. -/
theorem leaf_of_step {start : StrandPosition} {root : UInt64} {worker0 : W} {s s' : StrandState W}
    {label : StrandLabel W} (inv : StrandInv start root s)
    (taken : strandStep worker0 s label = some s') :
    s'.leaf = s.leaf ∧ (ExitRankKept worker0 s label) ∨
      ∃ leaf, s'.leaf = some leaf ∧
        (leaf = endRank start.code start.rank ↔ ExitRankKept worker0 s label) := by
  cases label with
  | returnDirect =>
    simp only [strandStep] at taken
    split at taken
    · rename_i done
      obtain rfl := Option.some.inj taken
      have at_ := (running_eq_some done.1).2
      obtain ⟨p, atP, _, _, _, ped⟩ := inv.frameAt at_ (by simp)
      refine .inr ⟨(s.ped worker0).rank, rfl, iff_of_true ?_ trivial⟩
      rw [ped]
      exact inv.atReturn atP (atP.2.trans done.2.1)
    · cases taken
  | resumeReturn parent_pedigree =>
    simp only [strandStep] at taken
    split at taken
    · rename_i rank at_
      split at taken
      · rename_i idle
        obtain rfl := Option.some.inj taken
        obtain ⟨p, atP, _, rfl, done⟩ := inv.frameAt at_ (by simp)
        refine .inr ⟨(s.ped worker0).rank, ?_, ?_⟩
        · simp [StrandState.resumeReturn, StrandState.saveLeaf, inv.idle worker0 idle,
            setup_for_execution_pedigree]
        · rw [ExitRankKept, at_, ← inv.atReturn atP done]
          simp [eq_comm]
      · cases taken
    · cases taken
  | detach w address =>
    have kept (y : Nat) (kind : StrandKind) (child rest : StrandCode) :
        (s.detach w y address kind child rest).leaf = s.leaf := rfl
    simp only [strandStep] at taken
    exact .inl ⟨by grind, trivial⟩
  | call w =>
    have kept (y : Nat) (callee rest : StrandCode) : (s.callFunction w y callee rest).leaf = s.leaf := rfl
    simp only [strandStep] at taken
    exact .inl ⟨by grind, trivial⟩
  | sync w =>
    have kept (y : Nat) (rest : StrandCode) : (s.sync w y rest).leaf = s.leaf := by
      unfold StrandState.sync
      split
      · exact leaf_provablyGoodSteal _ w y
      · rfl
    simp only [strandStep] at taken
    exact .inl ⟨by grind, trivial⟩
  | get w =>
    have kept (y : Nat) (rest : StrandCode) : (s.goOn y rest).leaf = s.leaf := rfl
    simp only [strandStep] at taken
    exact .inl ⟨by grind, trivial⟩
  | return_ w =>
    have called (y caller : Nat) : (s.returnToCaller w y caller).leaf = s.leaf := rfl
    have undone (y parent : Nat) : (s.undoDetach w y parent).leaf = s.leaf := rfl
    have fromSpawn (y parent : Nat) : (s.returnFromSpawn w y parent).leaf = s.leaf :=
      leaf_provablyGoodSteal _ w parent
    have fromFuture (y : Nat) : (s.returnFromFuture w y).leaf = s.leaf := rfl
    simp only [strandStep] at taken
    exact .inl ⟨by grind, trivial⟩
  | suspend w =>
    have kept (y : Nat) : (s.suspend w y).leaf = s.leaf := rfl
    simp only [strandStep] at taken
    exact .inl ⟨by grind, trivial⟩
  | resume w y =>
    have kept (saved_ped : PedigreeNode) : (s.resume w y saved_ped).leaf = s.leaf := rfl
    simp only [strandStep] at taken
    exact .inl ⟨by grind, trivial⟩
  | steal w y =>
    have kept (child : Nat) : (s.steal w y child).leaf = s.leaf := rfl
    simp only [strandStep] at taken
    exact .inl ⟨by grind, trivial⟩
  | setupForExecution w =>
    have kept (y : Nat) : (s.setupForExecution w y).leaf = s.leaf := rfl
    simp only [strandStep] at taken
    exact .inl ⟨by grind, trivial⟩
  | suspendReturn w =>
    have kept : (s.suspendReturn w).leaf = s.leaf := rfl
    simp only [strandStep] at taken
    exact .inl ⟨by grind, trivial⟩
  | write address value =>
    have kept : ((s.setNode address value).starting none).leaf = s.leaf := rfl
    simp only [strandStep] at taken
    exact .inl ⟨by grind, trivial⟩

/-- The rank stored back into the leaf is the serial one in every run in which worker 0 takes the exit frame
only with the rank that the outermost function was suspended with; a step that takes it with another rank
stores another rank. -/
theorem leaf_rank_serial (worker0 : W) (program : StrandCode) (rank root : UInt64) :
    (∀ s, (strandMachine worker0 program rank root).GuardedRun (ExitRankKept worker0) s →
      ∀ leaf, s.leaf = some leaf → leaf = endRank program rank) ∧
    ∀ s label s', (strandMachine worker0 program rank root).Reachable s →
      ¬ ExitRankKept worker0 s label → strandStep worker0 s label = some s' →
        ∃ leaf, s'.leaf = some leaf ∧ leaf ≠ endRank program rank := by
  constructor
  · intro s run
    induction run with
    | start initial =>
        obtain ⟨memory, rfl⟩ := initial
        intro leaf stored
        cases stored
    | step before allowed taken ih =>
        rcases leaf_of_step (strandInv_of_reachable before.reachable) taken with ⟨kept, _⟩ | ⟨leaf, stored, serial⟩
        · rwa [kept]
        · intro leaf' stored'
          obtain rfl := Option.some.inj (stored.symm.trans stored')
          exact serial.mpr allowed
  · intro s label s' reachable other taken
    rcases leaf_of_step (strandInv_of_reachable reachable) taken with ⟨_, kept⟩ | ⟨leaf, stored, serial⟩
    · exact absurd kept other
    · exact ⟨leaf, stored, fun same => other (serial.mp same)⟩

/-- A function that spawns once and syncs. -/
def spawnOnce : StrandCode := .spawn .ret (.sync .ret)

/-- Worker 1 steals it, worker 0 finishes the spawned function, and worker 1 reaches the return. -/
def spawnOnceRun : List (StrandLabel Bool) :=
  [.detach false (.other 1), .steal true 0, .setupForExecution true, .return_ false, .sync true,
    .setupForExecution true, .sync true, .suspendReturn true,
    .resumeReturn { rank := 0, parent := none }]

/-- Without a steal it returns directly, with the serial rank. -/
theorem leaf_rank_serial_direct :
    ((strandMachine false spawnOnce 5 3).after (strandsOnTwo spawnOnce)
      [.detach false (.other 1), .return_ false, .sync false, .returnDirect]).leaf = some 7 ∧
        endRank spawnOnce 5 = 7 :=
  ⟨by decide, ((leaf_rank_serial false spawnOnce 5 3).1 _
    (.after (.start (strandsOnTwo_start _))
      [.detach false (.other 1), .return_ false, .sync false, .returnDirect] (by decide)) 7
        (by decide)).symm⟩

/-- The rank that worker 0 has after the spawned function is stored instead of the serial one. -/
theorem leaf_rank_stale :
    ¬ ∀ s, (strandMachine false spawnOnce 5 3).Reachable s →
      ∀ leaf, s.leaf = some leaf → leaf = endRank spawnOnce 5 := by
  intro serial
  have reached : (strandMachine false spawnOnce 5 3).Reachable
      ((strandMachine false spawnOnce 5 3).after (strandsOnTwo spawnOnce) spawnOnceRun) :=
    .after (.start (strandsOnTwo_start _)) _
  exact absurd (serial _ reached 6 (by decide)) (by decide)

end Claims

end CilkL
