/-
Module: CilkL.Runtime.SyncReplay
Layer: Runtime
Purpose: Who continues from a sync, in a build with `CILK_RECORD_REPLAY`. The tree of full frames gets its
  workers: which worker has a full frame, the team of a worker's active deque and of a suspended one, the
  pedigree, the replay list and the log. `provably_good_steal` and the loops around it in `do_sync` and
  `do_return_from_spawn` are modelled; `RECORD_ON_REPLAY` is off, as in the source. What a strand does to
  its worker's pedigree is a choice of the run, and so is when its steals and its returns consume STEAL and
  ORPHANED entries or suspend its deque.
Imports: CilkL.Runtime.ReplayCursor, CilkL.Runtime.Shutdown, CilkL.Runtime.SpawnTree,
  Mathlib.Logic.Function.Basic
Trusted boundary: human-reviewed spec (translated from scheduler.c, deque.c, record-replay.h and
  record-replay.cpp)
Main exports: RecordReplay, ReplayConfig, ReplayWorker, StealCall, SyncReplay, SyncReplay.arrive,
  SyncLabel, syncReplayStep, syncReplayMachine
Open obligations: none
-/
import CilkL.Runtime.ReplayCursor
import CilkL.Runtime.Shutdown
import CilkL.Runtime.SpawnTree
import Mathlib.Logic.Function.Basic

namespace CilkL

/-- `record_replay_t`. -/
inductive RecordReplay where
  | none
  | recordLog
  | replayLog
deriving DecidableEq, Repr

/-- `provably_good_steal_t`. -/
inductive ProvablyGoodSteal where
  /-- Not the last child to the sync: attempt to steal work. -/
  | abandonExecution
  /-- Last child to the sync: continue executing on this worker. -/
  | continueExecution
  /-- The replay log indicates that this was the worker which continued. -/
  | waitForContinue
deriving DecidableEq, Repr

/-- What stays the same in a run: `g->record_or_replay`, the types of the workers, the arrays of their
replay lists, and the worker that runs the outermost frame. -/
structure ReplayConfig (W : Type) where
  record_or_replay : RecordReplay
  type : W → WorkerType
  replay_list_root : W → List ReplayEntry
  root : W
  root_type : type root = .user

/-- What a worker has of its own. -/
structure ReplayWorker (W : Type) where
  /-- `w->l->active_deque->team`. -/
  team : Option W
  /-- `w->pedigree`. -/
  rank : UInt64
  parent : List UInt64
  replay_list_entry : Nat
  /-- The lines written to `w->l->record_replay_fptr`. -/
  log : List (List Char)
deriving DecidableEq, Repr

/-- The chain of ranks from `&w->pedigree`. -/
def ReplayWorker.pedigree {W : Type} (worker : ReplayWorker W) : List UInt64 :=
  worker.rank :: worker.parent

/-- A call of `provably_good_steal`, as it is recorded. -/
structure StealCall (W : Type) where
  worker : W
  /-- The frame whose sync this is, and how many syncs it had crossed before. -/
  frame : Nat
  sync : Nat
  /-- The frame that arrives: the one that syncs, or a child of it that returns. -/
  arrival : Nat
  /-- The team of the worker's active deque when it calls. -/
  team : Option W
  match_found : Bool
  /-- What `simulate_decjoin` and `decjoin` return. -/
  counter : Nat
  result : ProvablyGoodSteal
  /-- The worker whose next frame the frame becomes. -/
  pushed : Option W
  /-- The lines the call writes to the worker's log. -/
  written : List (List Char)
  /-- The entry of the worker's replay list that the call consumes. -/
  consumed : Option ReplayEntry
deriving DecidableEq, Repr

/-- The tree with its workers. -/
structure SyncReplay (W : Type) where
  tree : SpawnTree
  /-- The worker that has the frame: in its active deque, as its next frame, or in the functions that end a
  spawn or a call. Nobody has one that is suspended. -/
  owner : Nat → Option W
  /-- The team of the suspended deque the frame is in. -/
  suspendedTeam : Nat → Option W
  worker : W → ReplayWorker W
  /-- The calls of `provably_good_steal` so far, the last one first. -/
  calls : List (StealCall W)

namespace SyncReplay

variable {W : Type} [DecidableEq W] (cfg : ReplayConfig W)

/-- Change one worker. -/
def modifyWorker (s : SyncReplay W) (w : W) (change : ReplayWorker W → ReplayWorker W) : SyncReplay W :=
  { s with worker := Function.update s.worker w (change (s.worker w)) }

/-- `w->l->replay_list_entry`. -/
def currentEntry (s : SyncReplay W) (w : W) : Option ReplayEntry :=
  (cfg.replay_list_root w)[(s.worker w).replay_list_entry]?

/-- `replay_match_sync_pedigree`. -/
def replayMatchSyncPedigree (s : SyncReplay W) (w : W) : Bool :=
  cfg.record_or_replay = .replayLog &&
    (s.currentEntry cfg w).any fun entry => entry.match .sync (s.worker w).pedigree

/-- `replay_record_sync`: the lines it writes. -/
def replayRecordSync (s : SyncReplay W) (w : W) (continuing : Bool) : List (List Char) :=
  if continuing ∧ cfg.record_or_replay = .recordLog then
    [ReplayRecord.write (s.worker w).pedigree .sync]
  else []

/-- `replay_advance_from_sync`: the entry it consumes. -/
def replayAdvanceFromSync (s : SyncReplay W) (w : W) (match_found continuing : Bool) :
    Option ReplayEntry :=
  if cfg.record_or_replay = .replayLog ∧ match_found ∧ continuing then s.currentEntry cfg w else none

/-- What `provably_good_steal` does for worker `w` and frame `ff` when `arrival` arrives. -/
def provablyGoodSteal (s : SyncReplay W) (w : W) (ff arrival : Nat) : StealCall W :=
  let counter := (s.tree.frame ff).joinCounter - 1
  let match_found := s.replayMatchSyncPedigree cfg w
  let result :=
    if match_found ∧ counter ≠ 0 then ProvablyGoodSteal.waitForContinue
    -- The frame goes to this worker in any case, but only a team leader is said to continue.
    else if counter = 0 ∧ (s.worker w).team = some w then .continueExecution
    else .abandonExecution
  { worker := w, frame := ff, sync := (s.tree.frame ff).crossings, arrival := arrival
    team := (s.worker w).team, match_found := match_found, counter := counter, result := result
    pushed := if counter = 0 then some w else none
    written := s.replayRecordSync cfg w (result = .continueExecution)
    consumed := s.replayAdvanceFromSync cfg w match_found (result = .continueExecution) }

/-- The end of a call: the log is written and the cursor advances. -/
def finishCall (s : SyncReplay W) (call : StealCall W) : SyncReplay W :=
  let s := s.modifyWorker call.worker fun worker =>
    { worker with
      log := worker.log ++ call.written
      replay_list_entry :=
        if call.consumed.isSome then
          nextEntry (cfg.replay_list_root call.worker) worker.replay_list_entry
        else worker.replay_list_entry }
  { s with calls := call :: s.calls }

/-- One call of `provably_good_steal` in `do_sync` or `do_return_from_spawn`, which the tree takes with
`label`. A worker that is told to wait leaves everything as it is and will call again. -/
def arrive (s : SyncReplay W) (w : W) (label : TreeLabel) (ff arrival : Nat) : Option (SyncReplay W) :=
  match spawnTreeStep s.tree label with
  | none => none
  | some tree =>
      let call := s.provablyGoodSteal cfg w ff arrival
      if call.result = .waitForContinue then some { s with calls := call :: s.calls }
      else
        some (finishCall cfg
          { s with
            tree := tree
            owner := fun f =>
              if f = ff ∧ call.counter = 0 then some w
              else if f = arrival then none
              else s.owner f } call)

/-- The worker has no full frame. -/
def Idle (s : SyncReplay W) (w : W) : Prop := ∀ f < s.tree.frames, s.owner f ≠ some w

instance (s : SyncReplay W) (w : W) : Decidable (s.Idle w) :=
  inferInstanceAs (Decidable (∀ f < s.tree.frames, _))

/-- The worker is in `do_sync` or in `do_return_from_spawn`, about to call `provably_good_steal`. -/
def AtSync (s : SyncReplay W) (w : W) : Prop :=
  ∃ f < s.tree.frames, s.owner f = some w ∧
    ((s.tree.frame f).strand = .syncing ∨ (s.tree.frame f).strand = .leaving)

instance (s : SyncReplay W) (w : W) : Decidable (s.AtSync w) :=
  inferInstanceAs (Decidable (∃ f < s.tree.frames, _))

/-- The team of the deque that has the frame. -/
def dequeTeam (s : SyncReplay W) (f : Nat) : Option W :=
  match s.owner f with
  | some victim => (s.worker victim).team
  | none => s.suspendedTeam f

/-- `detach_for_steal` on the deque of frame `f`, which left `tree`: the thief joins the team of the deque
and gets the loot; the deque gets the child, which was made last. -/
def steal (s : SyncReplay W) (thief : W) (f : Nat) (tree : SpawnTree) : SyncReplay W :=
  let child := tree.frames - 1
  let loot := if child = s.tree.frames then f else child - 1
  let team := s.dequeTeam f
  let s' := s.modifyWorker thief fun worker => { worker with team := team }
  { s' with
    tree := tree
    owner := fun g =>
      if g = child then s.owner f
      else if g = loot then some thief
      else if g = f then none
      else s.owner g
    suspendedTeam := fun g => if g = child then s.suspendedTeam f else s.suspendedTeam g }

end SyncReplay

/-- The steps of the workers. -/
inductive SyncLabel where
  /-- A step of the tree at a frame the worker has, or the steal of its head. -/
  | tree (label : TreeLabel)
  /-- The strand changes the pedigree of its worker. -/
  | pedigree (rank : UInt64) (parent : List UInt64)
  /-- A steal or a return consumes the current entry of the replay list. -/
  | consume
  /-- `deque_suspend` of the deque that has frame `f`; the new deque has the same team. -/
  | suspend (f : Nat)
  /-- The worker resumes the suspended deque that has frame `f`. -/
  | mug (f : Nat)
  /-- `check_for_work` without work. -/
  | outOfWork
  /-- `__cilkrts_bind_thread`: a user worker leads its own team. -/
  | bind
deriving DecidableEq, Repr

variable {W : Type} [DecidableEq W]

/-- The frame whose strand takes the step, or whose deque is stolen from. -/
def TreeLabel.frame : TreeLabel → Nat
  | .invoke f _ | .leave f | .steal f | .resume f | .sync f | .doSync f | .spawnReturn f
  | .decjoinSelf f | .decjoinParent f | .callReturn f | .finalizeCall f => f

/-- Who has the frames after a step of the worker `w` that is neither a steal nor an arrival: the frame of
a future is destroyed when it returns, and the caller of a called frame becomes the next frame of `w`. -/
def SyncReplay.ownerAfter (s : SyncReplay W) (w : W) (label : TreeLabel) (f : Nat) : Option W :=
  match label with
  | .decjoinSelf c => if f = c ∧ (s.tree.frame c).parent = none then none else s.owner f
  | .finalizeCall c =>
      if f = c then none
      else if (s.tree.frame c).parent = some f then some w
      else s.owner f
  | _ => s.owner f

/-- A step of the tree by a worker. -/
def SyncReplay.treeStep (cfg : ReplayConfig W) (s : SyncReplay W) (w : W) (label : TreeLabel) :
    Option (SyncReplay W) :=
  match label with
  | .steal f =>
      -- A user worker does not leave its team.
      if s.Idle w ∧ (cfg.type w = .user → s.dequeTeam f = some w) then
        (spawnTreeStep s.tree (.steal f)).map (s.steal w f)
      else none
  | .doSync f => if s.owner f = some w then s.arrive cfg w (.doSync f) f f else none
  | .decjoinParent c =>
      match (s.tree.frame c).parent with
      | none => none
      | some parent =>
          if s.owner c = some w then s.arrive cfg w (.decjoinParent c) parent c else none
  | label =>
      if s.owner label.frame = some w then
        (spawnTreeStep s.tree label).map fun tree =>
          { s with tree := tree, owner := s.ownerAfter w label }
      else none

/-- One step of a worker. -/
def syncReplayStep (cfg : ReplayConfig W) (s : SyncReplay W) : W × SyncLabel → Option (SyncReplay W)
  | (w, .tree label) => s.treeStep cfg w label
  | (w, .pedigree rank parent) =>
      if s.AtSync w then none
      else some (s.modifyWorker w fun worker => { worker with rank := rank, parent := parent })
  | (w, .consume) =>
      match s.currentEntry cfg w with
      | none => none
      | some entry =>
          if ¬ s.AtSync w ∧ (entry.m_type = .steal ∨ entry.m_type = .orphaned) then
            some (s.modifyWorker w fun worker =>
              { worker with
                replay_list_entry :=
                  nextEntry (cfg.replay_list_root w) worker.replay_list_entry })
          else none
  | (w, .suspend f) =>
      match (s.tree.frame f).strand with
      | .running _ =>
          if s.owner f = some w then
            some { s with
              owner := Function.update s.owner f none
              suspendedTeam := Function.update s.suspendedTeam f (s.worker w).team }
          else none
      | _ => none
  | (w, .mug f) =>
      match (s.tree.frame f).strand with
      | .running _ =>
          if s.owner f = none ∧ s.Idle w then
            some { s.modifyWorker w fun worker => { worker with team := s.suspendedTeam f } with
              owner := Function.update s.owner f (some w) }
          else none
      | _ => none
  | (w, .outOfWork) =>
      if s.Idle w ∧ cfg.type w ≠ .user then
        some (s.modifyWorker w fun worker => { worker with team := none })
      else none
  | (w, .bind) =>
      if s.Idle w ∧ cfg.type w = .user then
        some (s.modifyWorker w fun worker => { worker with team := some w })
      else none

/-- The root worker is bound and runs the outermost frame; the others are out of work, and all are at the
start of their replay lists. -/
def SyncReplay.initial (cfg : ReplayConfig W) : SyncReplay W :=
  { tree := .initial
    owner := fun f => if f = 0 then some cfg.root else none
    suspendedTeam := fun _ => none
    worker := fun w =>
      { team := if w = cfg.root then some cfg.root else none, rank := 1, parent := []
        replay_list_entry := 0, log := [] }
    calls := [] }

/-- The runs of the runtime. -/
def syncReplayMachine (cfg : ReplayConfig W) : Machine (SyncReplay W) (W × SyncLabel) where
  start s := s = .initial cfg
  step := syncReplayStep cfg

end CilkL
