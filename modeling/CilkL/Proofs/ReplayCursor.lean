/-
Module: CilkL.Proofs.ReplayCursor
Layer: Proofs
Purpose: Where the cursors of a replay rest. The scan changes orphaned entries only, and a mark stands for
  a steal that explains the entry; an advance never leaves the list and skips what was not marked. The
  cursor that was never advanced is the exception: it rests on the first entry, whatever that is.
Imports: CilkL.Runtime.ReplayCursor, Mathlib.Data.List.Forall2, Mathlib.Data.List.TakeWhile
Trusted boundary: none
Main exports: ReplayLists.Stolen, ReplayLists.CursorOk, ScanOf, scanOf_replayInitWorkers, nextEntry_spec,
  replay_cursors_skip_orphans, first_orphan_not_skipped
Open obligations: none
-/
import CilkL.Runtime.ReplayCursor
import Mathlib.Data.List.Forall2
import Mathlib.Data.List.TakeWhile

namespace CilkL

/-- Some worker's list has a steal with the pedigree of the entry and the worker `w` as victim. -/
def ReplayLists.Stolen (g : ReplayLists) (w : Nat) (entry : ReplayEntry) : Prop :=
  ∃ thief < g.total_workers, ∃ steal ∈ g.replay_list_root thief,
    steal.m_type = .steal ∧ steal.m_reverse_pedigree = entry.m_reverse_pedigree ∧
      steal.m_value.toInt = w

instance ReplayLists.Stolen.decidable (g : ReplayLists) (w : Nat) (entry : ReplayEntry) :
    Decidable (g.Stolen w entry) :=
  inferInstanceAs (Decidable (∃ thief < g.total_workers, ∃ steal ∈ g.replay_list_root thief, _))

/-- The cursor of worker `w` points to an entry of its own list, with no LAST entry before it, and that
entry is not an orphan nobody steals. -/
structure ReplayLists.CursorOk (g : ReplayLists) (w : Nat) : Prop where
  own : ∃ entry, (g.replay_list_root w)[g.replay_list_entry w]? = some entry
  notPast : ∀ i < g.replay_list_entry w, ∀ entry, (g.replay_list_root w)[i]? = some entry →
    entry.m_type ≠ .last
  stolen : ∀ entry, (g.replay_list_root w)[g.replay_list_entry w]? = some entry →
    entry.m_type = .orphaned → g.Stolen w entry

/-! ### The scan -/

/-- What the scans have done to an entry of the list of worker `w` that was loaded as `entry`: nothing, or
it is an orphan that they marked because of a steal. -/
def Scanned (g : ReplayLists) (w : Nat) (entry entry' : ReplayEntry) : Prop :=
  entry' = entry ∨
    entry.m_type = .orphaned ∧ g.Stolen w entry ∧ entry' = { entry with m_value := 0 }

/-- The lists `g'` are those of `g` after some scans. -/
structure ScanOf (g g' : ReplayLists) : Prop where
  total : g'.total_workers = g.total_workers
  cursor : g'.replay_list_entry = g.replay_list_entry
  entries : ∀ w, List.Forall₂ (Scanned g w) (g.replay_list_root w) (g'.replay_list_root w)

/-- A scan leaves the type and the pedigree of an entry alone. -/
theorem Scanned.type_pedigree {g : ReplayLists} {w : Nat} {entry entry' : ReplayEntry}
    (scanned : Scanned g w entry entry') :
    entry'.m_type = entry.m_type ∧ entry'.m_reverse_pedigree = entry.m_reverse_pedigree := by
  obtain rfl | ⟨-, -, rfl⟩ := scanned <;> exact ⟨rfl, rfl⟩

/-- A scan leaves steals alone. -/
theorem Scanned.steal {g : ReplayLists} {w : Nat} {entry entry' : ReplayEntry}
    (scanned : Scanned g w entry entry') (isSteal : entry'.m_type = .steal) : entry' = entry := by
  obtain rfl | ⟨orphan, -, rfl⟩ := scanned
  · rfl
  · rw [show _ = PedType.orphaned from orphan] at isSteal
    cases isSteal

theorem ScanOf.refl (g : ReplayLists) : ScanOf g g :=
  ⟨rfl, rfl, fun _ => List.forall₂_same.mpr fun _ _ => .inl rfl⟩

/-- Marking an entry again, or another one, for a steal there is. -/
theorem forall₂_scanned_mark {g : ReplayLists} {w : Nat} {steal : ReplayEntry}
    (stolen : ∀ entry, entry.m_reverse_pedigree = steal.m_reverse_pedigree → g.Stolen w entry)
    {entries entries' : List ReplayEntry} (scanned : List.Forall₂ (Scanned g w) entries entries') :
    List.Forall₂ (Scanned g w) entries (markMatchingOrphan steal.m_reverse_pedigree entries') := by
  induction scanned with
  | nil => exact .nil
  | @cons entry entry' entries entries' head tail ih =>
    simp only [markMatchingOrphan]
    split
    · exact .cons head tail
    · split
      next isMatch =>
        obtain ⟨sameType, samePedigree⟩ := head.type_pedigree
        refine .cons (.inr ⟨sameType ▸ isMatch.1, stolen entry (samePedigree ▸ isMatch.2), ?_⟩) tail
        obtain rfl | ⟨-, -, rfl⟩ := head <;> rfl
      next => exact .cons head ih

/-- Each member on the right has a partner on the left. -/
theorem exists_of_forall₂_of_mem {α β : Type*} {related : α → β → Prop} {xs : List α} {ys : List β}
    (all : List.Forall₂ related xs ys) {y : β} (mem : y ∈ ys) : ∃ x ∈ xs, related x y := by
  induction all with
  | nil => cases mem
  | cons head tail ih =>
    obtain rfl | later := List.mem_cons.mp mem
    · exact ⟨_, List.mem_cons_self, head⟩
    · obtain ⟨x, isLater, holds⟩ := ih later
      exact ⟨x, List.mem_cons_of_mem _ isLater, holds⟩

/-- One list is scanned: all its steals were loaded for the worker `thief`. -/
theorem ScanOf.of_scanForMatchingSteals {g g' g'' : ReplayLists} (before : ScanOf g g') {thief : Nat}
    (inRange : thief < g.total_workers) {entries : List ReplayEntry}
    (loaded : ∀ entry ∈ entries, entry.m_type = .steal → entry ∈ g.replay_list_root thief)
    (done : scanForMatchingSteals g' entries = some g'') : ScanOf g g'' := by
  induction entries generalizing g' with
  | nil =>
    cases done
    exact before
  | cons entry entries ih =>
    obtain ⟨here, later⟩ := List.forall_mem_cons.mp loaded
    simp only [scanForMatchingSteals] at done
    split at done
    · cases done
      exact before
    · split at done
      next isSteal =>
        split at done
        next valid =>
          refine ih ?_ later done
          refine ⟨before.total, before.cursor, fun w => ?_⟩
          dsimp only
          split
          next isVictim =>
            subst isVictim
            refine forall₂_scanned_mark (fun orphan same => ?_) (before.entries _)
            refine ⟨thief, inRange, entry, here isSteal, isSteal, same.symm, ?_⟩
            exact (Int.toNat_of_nonneg valid.1).symm
          next => exact before.entries w
        next => cases done
      next => exact ih before later done

/-- The scans of the lists of some workers. -/
theorem ScanOf.of_scanWorkers {g g' g'' : ReplayLists} (before : ScanOf g g') {workers : List Nat}
    (inRange : ∀ i ∈ workers, i < g.total_workers) (done : scanWorkers g' workers = some g'') :
    ScanOf g g'' := by
  induction workers generalizing g' with
  | nil =>
    cases done
    exact before
  | cons i workers ih =>
    obtain ⟨here, later⟩ := List.forall_mem_cons.mp inRange
    obtain ⟨next, scanned, rest⟩ := Option.bind_eq_some_iff.mp done
    refine ih (before.of_scanForMatchingSteals here (fun entry mem isSteal => ?_) scanned) later rest
    obtain ⟨old, isOld, same⟩ := exists_of_forall₂_of_mem (before.entries i) mem
    exact same.steal isSteal ▸ isOld

/-- What `replay_init_workers` leaves. -/
theorem scanOf_replayInitWorkers {total_workers : Nat} {logs : Nat → LoadedLog} {g : ReplayLists}
    (started : replayInitWorkers total_workers logs = some g) :
    ScanOf (loadedLists total_workers logs) g :=
  (ScanOf.refl _).of_scanWorkers (fun _ mem => List.mem_range.mp mem) started

/-- The scan finds the steals that were loaded, so an orphan is stolen after it if it was before. -/
theorem ScanOf.stolen_iff {g g' : ReplayLists} (scan : ScanOf g g') {w : Nat} {entry : ReplayEntry} :
    g'.Stolen w entry ↔ g.Stolen w entry := by
  constructor
  · rintro ⟨thief, inRange, steal, mem, isSteal, same, victim⟩
    obtain ⟨old, isOld, scanned⟩ := exists_of_forall₂_of_mem (scan.entries thief) mem
    exact ⟨thief, scan.total ▸ inRange, steal, scanned.steal isSteal ▸ isOld, isSteal, same, victim⟩
  · rintro ⟨thief, inRange, steal, mem, isSteal, same, victim⟩
    obtain ⟨new, isNew, scanned⟩ := exists_of_forall₂_of_mem (scan.entries thief).flip mem
    obtain rfl | ⟨orphan, -, -⟩ := scanned
    · exact ⟨thief, scan.total.symm ▸ inRange, new, isNew, isSteal, same, victim⟩
    · rw [orphan] at isSteal
      cases isSteal

/-- An entry before and after the scans: the type is the same, and so is whether somebody steals it. -/
theorem ScanOf.getElem? {g g' : ReplayLists} (scan : ScanOf g g') {w i : Nat}
    {entry entry' : ReplayEntry} (before : (g.replay_list_root w)[i]? = some entry)
    (after : (g'.replay_list_root w)[i]? = some entry') :
    entry'.m_type = entry.m_type ∧ (g'.Stolen w entry' ↔ g.Stolen w entry) := by
  obtain ⟨inOld, rfl⟩ := List.getElem?_eq_some_iff.mp before
  obtain ⟨inNew, rfl⟩ := List.getElem?_eq_some_iff.mp after
  obtain ⟨sameType, samePedigree⟩ := ((scan.entries w).get inOld inNew).type_pedigree
  simp only [List.get_eq_getElem] at sameType samePedigree
  refine ⟨sameType, scan.stolen_iff.trans ?_⟩
  unfold ReplayLists.Stolen
  rw [samePedigree]

/-! ### The cursor -/

/-- An array whose LAST entry is the one at its end. -/
structure Terminated (root : List ReplayEntry) : Prop where
  nonempty : 0 < root.length
  last_iff : ∀ i entry, root[i]? = some entry → (entry.m_type = .last ↔ i + 1 = root.length)

/-- The array of a loaded log is terminated. -/
theorem LoadedLog.terminated (log : LoadedLog) : Terminated log.root where
  nonempty := by simp [LoadedLog.root]
  last_iff i entry found := by
    rw [LoadedLog.root, List.getElem?_append] at found
    split at found
    next isEntry =>
      have notLast := log.entries_ne_last entry (List.mem_of_getElem? found)
      simp only [LoadedLog.root, List.length_append, List.length_singleton, notLast, false_iff]
      omega
    next isLast =>
      have inRange := (List.getElem?_eq_some_iff.mp found).1
      have atEnd : i - log.entries.length = 0 := by simpa using inRange
      obtain rfl : log.last = entry := by simpa [atEnd] using found
      simp only [LoadedLog.root, List.length_append, List.length_singleton, log.last_type, true_iff]
      omega

/-- A scan leaves the types alone, and with them the end of the array. -/
theorem Terminated.of_scan {g : ReplayLists} {w : Nat} {root root' : List ReplayEntry}
    (terminated : Terminated root) (scanned : List.Forall₂ (Scanned g w) root root') :
    Terminated root' where
  nonempty := scanned.length_eq ▸ terminated.nonempty
  last_iff i entry found := by
    obtain ⟨inRange, rfl⟩ := List.getElem?_eq_some_iff.mp found
    have inOld : i < root.length := scanned.length_eq ▸ inRange
    have same := (scanned.get inOld inRange).type_pedigree.1
    simp only [List.get_eq_getElem] at same
    rw [same, ← scanned.length_eq]
    exact terminated.last_iff i _ (List.getElem?_eq_getElem inOld)

/-- What follows the longest front of members with a property does not have it. -/
theorem not_of_getElem?_length_takeWhile {α : Type*} {p : α → Bool} {xs : List α} {x : α}
    (found : xs[(xs.takeWhile p).length]? = some x) : p x = false := by
  induction xs with
  | nil => simp at found
  | cons head tail ih =>
    cases holds : p head with
    | true =>
      rw [List.takeWhile_cons_of_pos holds, List.length_cons, List.getElem?_cons_succ] at found
      exact ih found
    | false =>
      rw [List.takeWhile_cons_of_neg (by simp [holds])] at found
      obtain rfl : head = x := by simpa using found
      exact holds

/-- `next_entry` stays inside the array and skips the orphans that are not marked. -/
theorem nextEntry_spec {root : List ReplayEntry} (terminated : Terminated root) {i : Nat}
    (inside : i < root.length) :
    nextEntry root i < root.length ∧
      ∀ entry, root[nextEntry root i]? = some entry → entry.unmatchedOrphan = false := by
  have split := List.drop_eq_getElem_cons inside
  have lastHere := terminated.last_iff i root[i] (List.getElem?_eq_getElem inside)
  unfold nextEntry
  rw [split]
  dsimp only
  split
  next isLast =>
    refine ⟨inside, fun entry found => ?_⟩
    obtain rfl : root[i] = entry := by simpa [List.getElem?_eq_getElem inside] using found
    simp [ReplayEntry.unmatchedOrphan, isLast]
  next notLast =>
    set rest := root.drop (i + 1) with isRest
    have restLength : rest.length = root.length - (i + 1) := List.length_drop
    have more : i + 1 < root.length := by
      have := mt lastHere.mpr notLast
      omega
    -- The LAST entry stops the loop.
    have stops : (rest.takeWhile ReplayEntry.unmatchedOrphan).length < rest.length := by
      have front := List.takeWhile_prefix ReplayEntry.unmatchedOrphan (l := rest)
      refine lt_of_le_of_ne front.length_le fun all => ?_
      have whole := List.takeWhile_eq_self_iff.mp (front.eq_of_length all)
      have atEnd : root.length - 1 < root.length := by omega
      have isLast := (terminated.last_iff _ _ (List.getElem?_eq_getElem atEnd)).mpr (by omega)
      have inRest : root[root.length - 1] ∈ rest := by
        refine List.mem_of_getElem? (i := root.length - 1 - (i + 1)) ?_
        rw [isRest, List.getElem?_drop, ← List.getElem?_eq_getElem atEnd]
        congr 1
        omega
      simpa [ReplayEntry.unmatchedOrphan, isLast] using whole _ inRest
    refine ⟨by omega, fun entry found => ?_⟩
    rw [← List.getElem?_drop, ← isRest] at found
    exact not_of_getElem?_length_takeWhile found

/-! ### Replays -/

/-- The cursors of a replay that started as `g`: they stay inside the arrays, which do not change, and a
cursor that advanced rests on no orphan that is not marked. -/
structure ReplayInv (g s : ReplayLists) : Prop where
  total : s.total_workers = g.total_workers
  root : s.replay_list_root = g.replay_list_root
  inside : ∀ w, s.replay_list_entry w < (g.replay_list_root w).length
  rests : ∀ w, s.replay_list_entry w = 0 ∨
    ∀ entry, (g.replay_list_root w)[s.replay_list_entry w]? = some entry →
      entry.unmatchedOrphan = false

/-- Steals are found in the arrays alone. -/
theorem ReplayInv.stolen_iff {g s : ReplayLists} (inv : ReplayInv g s) {w : Nat} {entry : ReplayEntry} :
    s.Stolen w entry ↔ g.Stolen w entry := by
  unfold ReplayLists.Stolen
  rw [inv.total, inv.root]

theorem ReplayInv.of_consume {g s : ReplayLists} (inv : ReplayInv g s)
    (terminated : ∀ w, Terminated (g.replay_list_root w)) (w : Nat) : ReplayInv g (s.consume w) where
  total := inv.total
  root := inv.root
  inside i := by
    simp only [ReplayLists.consume]
    split
    · rw [inv.root]
      exact (nextEntry_spec (terminated i) (inv.inside i)).1
    · exact inv.inside i
  rests i := by
    simp only [ReplayLists.consume]
    split
    · rw [inv.root]
      exact .inr (nextEntry_spec (terminated i) (inv.inside i)).2
    · exact inv.rests i

section

variable {total_workers : Nat} {logs : Nat → LoadedLog} {g : ReplayLists}

/-- The arrays after the scans are terminated. -/
theorem terminated_replayInitWorkers (started : replayInitWorkers total_workers logs = some g) (w : Nat) :
    Terminated (g.replay_list_root w) :=
  (logs w).terminated.of_scan ((scanOf_replayInitWorkers started).entries w)

/-- The invariant in every state of the replay. -/
theorem replayInv_reachable (started : replayInitWorkers total_workers logs = some g) {s : ReplayLists}
    (reachable : (replayMachine total_workers logs).Reachable s) : ReplayInv g s := by
  have terminated := terminated_replayInitWorkers started
  refine @Machine.Reachable.invariant _ _ _ (ReplayInv g) ?_ ?_ _ reachable
  · intro s initial
    obtain rfl : g = s := Option.some.inj (started.symm.trans initial)
    have cursor := (scanOf_replayInitWorkers started).cursor
    refine ⟨rfl, rfl, fun w => ?_, fun w => .inl (congrFun cursor w)⟩
    rw [show g.replay_list_entry w = 0 from congrFun cursor w]
    exact (terminated w).nonempty
  · intro s w s' _ inv taken
    simp only [replayMachine] at taken
    split at taken
    · cases taken
      exact inv.of_consume terminated w
    · cases taken

/-- An orphan that the scans marked is stolen. -/
theorem stolen_of_marked (started : replayInitWorkers total_workers logs = some g) {w i : Nat}
    {entry : ReplayEntry} (found : (g.replay_list_root w)[i]? = some entry)
    (orphan : entry.m_type = .orphaned) (marked : entry.unmatchedOrphan = false) : g.Stolen w entry := by
  have scan := scanOf_replayInitWorkers started
  obtain ⟨old, isOld, same | ⟨-, stolen, rfl⟩⟩ :=
    exists_of_forall₂_of_mem (scan.entries w) (List.mem_of_getElem? found)
  · -- What the scans left alone was loaded with the value -1, or is the LAST entry.
    subst same
    obtain isEntry | isLast := List.mem_append.mp isOld
    · have value := (logs w).entries_value entry isEntry (by simp [orphan])
      simp [ReplayEntry.unmatchedOrphan, orphan, value] at marked
    · obtain rfl := List.mem_singleton.mp isLast
      rw [(logs w).last_type] at orphan
      cases orphan
  · exact scan.stolen_iff.mpr stolen

/-- In every replay of a set of loaded logs each cursor points into its own list, never past the LAST
entry, and never rests on an orphan nobody steals, exactly when no worker's log starts with one. -/
theorem replay_cursors_skip_orphans (started : replayInitWorkers total_workers logs = some g) :
    (∀ s, (replayMachine total_workers logs).Reachable s → ∀ w < total_workers, s.CursorOk w) ↔
      ∀ w < total_workers, ∀ entry, (logs w).root[0]? = some entry → entry.m_type = .orphaned →
        (loadedLists total_workers logs).Stolen w entry := by
  have scan := scanOf_replayInitWorkers started
  have terminated := terminated_replayInitWorkers started
  have first (w : Nat) : ∃ entry entry', (logs w).root[0]? = some entry ∧
      (g.replay_list_root w)[0]? = some entry' ∧ entry'.m_type = entry.m_type ∧
      (g.Stolen w entry' ↔ (loadedLists total_workers logs).Stolen w entry) := by
    have before := List.getElem?_eq_getElem (logs w).terminated.nonempty
    have after := List.getElem?_eq_getElem (terminated w).nonempty
    exact ⟨_, _, before, after, scan.getElem? before after⟩
  constructor
  · intro always w inRange entry found orphan
    obtain ⟨entry, entry', before, after, sameType, sameStolen⟩ := first w
    obtain rfl := Option.some.inj (before.symm.trans found)
    have atRoot : g.replay_list_entry w = 0 := congrFun scan.cursor w
    have ok := (always g (.start started) w inRange).stolen entry' (atRoot.symm ▸ after)
    exact sameStolen.mp (ok (sameType.trans orphan))
  · intro firsts s reachable w inRange
    have inv := replayInv_reachable started reachable
    have inside := inv.inside w
    refine ⟨?_, ?_, ?_⟩
    · rw [inv.root]
      exact ⟨_, List.getElem?_eq_getElem inside⟩
    · intro i earlier entry found
      rw [inv.root] at found
      rw [Ne, (terminated w).last_iff i entry found]
      omega
    · intro entry found orphan
      rw [inv.root] at found
      rw [inv.stolen_iff]
      obtain never | advanced := inv.rests w
      · obtain ⟨old, new, before, after, sameType, sameStolen⟩ := first w
        rw [never, after] at found
        cases found
        exact sameStolen.mpr (firsts w inRange old before (sameType.symm.trans orphan))
      · exact stolen_of_marked started found orphan (advanced entry found)

end

/-- Two logs: worker 1 was orphaned when worker 0 had stolen, then it continued from a sync. -/
def stolenOrphan : Nat → LoadedLog
  | 0 => (LoadedLog.empty ⟨[], .last, 0⟩).cons ⟨[2, 1], .steal, 1⟩ (by decide)
  | _ => ((LoadedLog.empty ⟨[], .last, 0⟩).cons ⟨[3], .sync, -1⟩ (by decide)).cons
      ⟨[2, 1], .orphaned, -1⟩ (by decide)

/-- The cursors of these logs. -/
theorem replay_cursors_skip_orphans_stolen :
    (replayInitWorkers 2 stolenOrphan).isSome ∧
      ∀ s, (replayMachine 2 stolenOrphan).Reachable s → ∀ w < 2, s.CursorOk w := by
  refine ⟨by decide, ?_⟩
  exact (replay_cursors_skip_orphans (g := (replayInitWorkers 2 stolenOrphan).get (by decide))
    (Option.some_get _).symm).mpr (by decide)

/-- The same logs without the steal: nobody stole the frame that worker 1 returned from. -/
def unstolenOrphan : Nat → LoadedLog
  | 0 => LoadedLog.empty ⟨[], .last, 0⟩
  | w + 1 => stolenOrphan (w + 1)

-- The file of worker 1 holds the lines "Orphaned 1_2 -1 -1" and "Sync 3 -1 -1".
example : (loadRecordedLog 2 ⟨[], .last, 0⟩ [⟨pedTypeStrOrphaned, ['1', '_', '2'], -1, -1⟩,
    ⟨pedTypeStrSync, ['3'], -1, -1⟩]).map LoadedLog.root = some (unstolenOrphan 1).root := by
  decide

/-- The replay of these logs starts with the cursor of worker 1 on an orphan nobody steals. -/
theorem first_orphan_not_skipped :
    ¬ ∀ s, (replayMachine 2 unstolenOrphan).Reachable s → ∀ w < 2, s.CursorOk w := by
  intro always
  have started : replayInitWorkers 2 unstolenOrphan =
      some ((replayInitWorkers 2 unstolenOrphan).get (by decide)) := (Option.some_get _).symm
  have ok := (always _ (.start started) 1 (by decide)).stolen ⟨[2, 1], .orphaned, -1⟩ (by decide) rfl
  exact absurd ok (by decide)

end CilkL
