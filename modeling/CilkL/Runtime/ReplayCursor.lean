/-
Module: CilkL.Runtime.ReplayCursor
Layer: Runtime
Purpose: The replay lists of the workers: how the records of the logs become lists that end with a LAST
  entry, how the steals mark the orphaned entries they explain, and how a worker's `replay_list_entry`
  advances when an entry is consumed. When an entry is consumed is left to the run.
Imports: CilkL.Library.Machine, CilkL.Runtime.RecordReplay
Trusted boundary: human-reviewed spec (translated from record-replay.cpp)
Main exports: LoadedLog, loadRecordedLog, ReplayLists, scanForMatchingSteals, replayInitWorkers,
  nextEntry, replayMachine
Open obligations: none
-/
import CilkL.Library.Machine
import CilkL.Runtime.RecordReplay

namespace CilkL

/-- `PED_TYPE_STR_WORKERS`. -/
def pedTypeStrWorkers : List Char := ['W', 'o', 'r', 'k', 'e', 'r', 's']

/-- `PED_VERSION`. -/
def pedVersion : Int32 := 1

/-- A worker's replay list as `load_recorded_log` leaves it: the entries it filled in and the one that
`allocate_replay_list` put at the end. -/
structure LoadedLog where
  entries : List ReplayEntry
  last : ReplayEntry
  entries_ne_last : ∀ entry ∈ entries, entry.m_type ≠ .last
  /-- "Victim not valid": no entry but a steal has a value other than -1. -/
  entries_value : ∀ entry ∈ entries, entry.m_type ≠ .steal → entry.m_value = -1
  last_type : last.m_type = .last

/-- The array a replay list is stored in. -/
def LoadedLog.root (log : LoadedLog) : List ReplayEntry := log.entries ++ [log.last]

/-- An entry that was loaded is not the LAST one, and has a value other than -1 only as a steal. -/
theorem ReplayEntry.load_type_value {previous entry : ReplayEntry} {type pedigreeStr : List Char}
    {value1 : Int32} (loaded : previous.load type pedigreeStr value1 = some entry) :
    entry.m_type ≠ .last ∧ (entry.m_type ≠ .steal → entry.m_value = -1) := by
  simp only [ReplayEntry.load] at loaded
  split at loaded
  · obtain ⟨terms, -, rfl⟩ := Option.map_eq_some_iff.mp loaded
    simp
  · split at loaded
    · obtain ⟨terms, -, rfl⟩ := Option.map_eq_some_iff.mp loaded
      simp
    · split at loaded
      · obtain ⟨terms, -, rfl⟩ := Option.map_eq_some_iff.mp loaded
        simp
      · cases loaded
        simp

/-- An empty list in memory that holds `memory`. -/
def LoadedLog.empty (memory : ReplayEntry) : LoadedLog where
  entries := []
  last := { memory with m_type := .last }
  entries_ne_last := by simp
  entries_value := by simp
  last_type := rfl

/-- A list with one more entry at its front. -/
def LoadedLog.cons (log : LoadedLog) (entry : ReplayEntry)
    (loaded : entry.m_type ≠ .last ∧ (entry.m_type ≠ .steal → entry.m_value = -1)) : LoadedLog where
  entries := entry :: log.entries
  last := log.last
  entries_ne_last := List.forall_mem_cons.mpr ⟨loaded.1, log.entries_ne_last⟩
  entries_value := List.forall_mem_cons.mpr ⟨loaded.2, log.entries_value⟩
  last_type := log.last_type

/-- `load_recorded_log` on the records of a file: a Workers record is checked, which ends the program
when it does not fit, and every other one becomes an entry, also one of a type that is not known. -/
def loadRecordedLog (P : Int32) (memory : ReplayEntry) : List LogFields → Option LoadedLog
  | [] => some (.empty memory)
  | fields :: records =>
    if fields.ped_type = pedTypeStrWorkers then
      if fields.i1 = P ∧ fields.i2 = pedVersion then loadRecordedLog P memory records else none
    else
      match loaded : memory.load fields.ped_type fields.ped_str fields.i1 with
      | none => none
      | some entry =>
        (loadRecordedLog P memory records).map fun log =>
          log.cons entry (ReplayEntry.load_type_value loaded)

/-- `replay_list_root` and `replay_list_entry` of the workers; the pointer is an index into the array. -/
structure ReplayLists where
  total_workers : Nat
  replay_list_root : Nat → List ReplayEntry
  replay_list_entry : Nat → Nat

/-- The inner loop of `scan_for_matching_steals`: the first orphaned entry with the pedigree is marked. -/
def markMatchingOrphan (pedigree : List UInt64) : List ReplayEntry → List ReplayEntry
  | [] => []
  | entry :: entries =>
    if entry.m_type = .last then entry :: entries
    else if entry.m_type = .orphaned ∧ entry.m_reverse_pedigree = pedigree then
      { entry with m_value := 0 } :: entries
    else entry :: markMatchingOrphan pedigree entries

/-- `scan_for_matching_steals` on the entries of a list. A mark changes no steal, so the loop reads the
entries as they were. There is no result when the assertion on a victim fails. -/
def scanForMatchingSteals (g : ReplayLists) : List ReplayEntry → Option ReplayLists
  | [] => some g
  | entry :: entries =>
    if entry.m_type = .last then some g
    else if entry.m_type = .steal then
      if 0 ≤ entry.m_value.toInt ∧ entry.m_value.toInt < g.total_workers then
        let victim := entry.m_value.toInt.toNat
        scanForMatchingSteals
          { g with
            replay_list_root := fun i =>
              if i = victim then markMatchingOrphan entry.m_reverse_pedigree (g.replay_list_root i)
              else g.replay_list_root i } entries
      else none
    else scanForMatchingSteals g entries

/-- The scans of `replay_init_workers` over the workers from `i` on. -/
def scanWorkers (g : ReplayLists) : List Nat → Option ReplayLists
  | [] => some g
  | i :: workers => (scanForMatchingSteals g (g.replay_list_root i)).bind (scanWorkers · workers)

/-- The lists right after they were loaded. -/
def loadedLists (total_workers : Nat) (logs : Nat → LoadedLog) : ReplayLists :=
  { total_workers := total_workers, replay_list_root := fun i => (logs i).root
    replay_list_entry := fun _ => 0 }

/-- `replay_init_workers` when a log is replayed. -/
def replayInitWorkers (total_workers : Nat) (logs : Nat → LoadedLog) : Option ReplayLists :=
  scanWorkers (loadedLists total_workers logs) (List.range total_workers)

/-- An orphaned entry that no steal marked. -/
def ReplayEntry.unmatchedOrphan (entry : ReplayEntry) : Bool :=
  entry.m_type = .orphaned && entry.m_value = -1

/-- `replay_entry_t::next_entry` at the `i`-th entry of an array. -/
def nextEntry (root : List ReplayEntry) (i : Nat) : Nat :=
  match root.drop i with
  | [] => i
  | entry :: entries =>
    if entry.m_type = .last then i
    else i + 1 + (entries.takeWhile ReplayEntry.unmatchedOrphan).length

/-- `w->l->replay_list_entry = w->l->replay_list_entry->next_entry()`. -/
def ReplayLists.consume (g : ReplayLists) (w : Nat) : ReplayLists :=
  { g with
    replay_list_entry := fun i =>
      if i = w then nextEntry (g.replay_list_root i) (g.replay_list_entry i)
      else g.replay_list_entry i }

/-- The replays of a set of logs; a label is the worker that consumes its current entry. -/
def replayMachine (total_workers : Nat) (logs : Nat → LoadedLog) : Machine ReplayLists Nat where
  start g := replayInitWorkers total_workers logs = some g
  step g w := if w < g.total_workers then some (g.consume w) else none

end CilkL
