/-
Module: CilkL.Proofs.PendingException
Layer: Proofs
Purpose: What the merges of pending exceptions keep, for any sequence of records and any grouping of the merges:
  the serially first exception, the caught exceptions, the count of uncaught exceptions, and each exception and
  record that goes goes once. A record that asks to throw again the exception caught last is merged wrongly
  into one that has an active exception and no caught ones, and into one that has only caught ones.
Imports: CilkL.Runtime.PendingException, Mathlib
Trusted boundary: none
Main exports: MergedAsSerial, MergeableInfos, Resolvable, merge_pending_exceptions_serial
Open obligations: none
-/
import CilkL.Runtime.PendingException
import Mathlib

namespace CilkL

variable {ρ ε : Type}

/-! ### What a sequence of records stands for -/

/-- The first of two that is not nil. -/
def ActiveException.or : ActiveException ε → ActiveException ε → ActiveException ε
  | .nil, right => right
  | left, _ => left

/-- The first of two lists that is not empty. -/
def orCaught : List ε → List ε → List ε
  | [], right => right
  | left, _ => left

def activeOf (info : Option (PendingExceptionInfo ρ ε)) : ActiveException ε :=
  info.elim .nil PendingExceptionInfo.activeException

def caughtOf (info : Option (PendingExceptionInfo ρ ε)) : List ε :=
  info.elim [] fun info => info.runtimeState.caughtExceptions

def uncaughtOf (info : Option (PendingExceptionInfo ρ ε)) : UInt32 :=
  info.elim 0 fun info => info.runtimeState.uncaughtExceptions

def exceptionOf (info : Option (PendingExceptionInfo ρ ε)) : Option ε := info.bind fun info => info.active

/-- The active exception of the first record that has one which is not nil. -/
def firstActive (infos : List (Option (PendingExceptionInfo ρ ε))) : ActiveException ε :=
  infos.foldr (fun info rest => (activeOf info).or rest) .nil

/-- The first list of caught exceptions that is not empty. -/
def firstCaught (infos : List (Option (PendingExceptionInfo ρ ε))) : List ε :=
  infos.foldr (fun info rest => orCaught (caughtOf info) rest) []

/-- The counts of uncaught exceptions together. -/
def uncaughtSum (infos : List (Option (PendingExceptionInfo ρ ε))) : UInt32 :=
  infos.foldr (fun info rest => uncaughtOf info + rest) 0

/-- The records that are merged are merged to what they stand for in the serial order. -/
structure MergedAsSerial (infos : List (Option (PendingExceptionInfo ρ ε))) (merged : MergedExceptions ρ ε) :
    Prop where
  active : activeOf merged.info = firstActive infos
  resolved : ∀ info, merged.info = some info → info.active ≠ none → info.rethrow = false
  caught : caughtOf merged.info = firstCaught infos
  uncaught : uncaughtOf merged.info = uncaughtSum infos - UInt32.ofNat merged.deleted.length
  /-- Each active exception is deleted once, but for that of the merged record. -/
  deleted : (merged.deleted ++ (exceptionOf merged.info).toList).Perm (infos.filterMap exceptionOf)
  /-- Each record is freed once, but for the merged one. -/
  freed : (merged.freed ++ (merged.info.map (·.address)).toList).Perm
    (infos.filterMap fun info => info.map (·.address))

section Serial

variable {infos infos' : List (Option (PendingExceptionInfo ρ ε))}

theorem ActiveException.or_assoc (a b c : ActiveException ε) : (a.or b).or c = a.or (b.or c) := by
  cases a <;> rfl

theorem ActiveException.or_nil (a : ActiveException ε) : a.or .nil = a := by
  cases a <;> rfl

theorem firstActive_append : firstActive (infos ++ infos') = (firstActive infos).or (firstActive infos') := by
  induction infos with
  | nil => rfl
  | cons info infos ih => exact (congrArg (activeOf info).or ih).trans (ActiveException.or_assoc _ _ _).symm

theorem orCaught_assoc (a b c : List ε) : orCaught (orCaught a b) c = orCaught a (orCaught b c) := by
  cases a <;> rfl

theorem orCaught_nil (a : List ε) : orCaught a [] = a := by
  cases a <;> rfl

theorem firstCaught_append :
    firstCaught (infos ++ infos') = orCaught (firstCaught infos) (firstCaught infos') := by
  induction infos with
  | nil => rfl
  | cons info infos ih => exact (congrArg (orCaught (caughtOf info)) ih).trans (orCaught_assoc _ _ _).symm

theorem uncaughtSum_append : uncaughtSum (infos ++ infos') = uncaughtSum infos + uncaughtSum infos' := by
  induction infos with
  | nil => exact (UInt32.zero_add _).symm
  | cons info infos ih => exact (congrArg (uncaughtOf info + ·) ih).trans (UInt32.add_assoc _ _ _).symm

end Serial

/-! ### One merge -/

/-- What the comment on `__cilkrts_merge_pending_exceptions` asks for: the left record is not unresolved, and
at most one has caught exceptions. -/
def MergeableInfos (left right : PendingExceptionInfo ρ ε) : Prop :=
  left.activeException ≠ .unresolved ∧
    (left.runtimeState.caughtExceptions = [] ∨ right.runtimeState.caughtExceptions = [])

/-- A record that asks to throw again has to its left a record with both an active exception and caught ones,
or with neither. -/
def Resolvable (left right : PendingExceptionInfo ρ ε) : Prop :=
  right.activeException = .unresolved → (left.active ≠ none ↔ left.runtimeState.caughtExceptions ≠ [])

/-- A record with an active exception does not ask to throw again. -/
def PendingExceptionInfo.Resolved (info : PendingExceptionInfo ρ ε) : Prop :=
  info.active ≠ none → info.rethrow = false

theorem SavedException.resolved {info : PendingExceptionInfo ρ ε} (saved : SavedException info) :
    info.Resolved := by
  cases saved with
  | «return» address state exc =>
    intro hasExc
    cases exc with
    | none => exact absurd rfl hasExc
    | some e => rfl
  | state | sync => exact fun _ => rfl

section Merge

variable {left right : PendingExceptionInfo ρ ε}

/-- A record that is not unresolved does not ask to throw again. -/
theorem PendingExceptionInfo.Resolved.rethrow_eq_false (resolved : left.Resolved)
    (notUnresolved : left.activeException ≠ .unresolved) : left.rethrow = false := by
  cases isActive : left.active with
  | some e => exact resolved (by rw [isActive]; nofun)
  | none =>
    rw [PendingExceptionInfo.activeException, isActive] at notUnresolved
    exact Bool.not_eq_true _ |>.mp fun rethrows => notUnresolved (if_pos rethrows)

/-- The active exception of a record by its fields. -/
theorem PendingExceptionInfo.activeException_eq (info : PendingExceptionInfo ρ ε) :
    info.activeException = info.active.elim (if info.rethrow then .unresolved else .nil) .exception := by
  rw [PendingExceptionInfo.activeException]
  cases info.active <;> rfl

/-- What a merge makes of each field. -/
structure MergedPair (left right : Option (PendingExceptionInfo ρ ε)) (merged : MergedExceptions ρ ε) : Prop where
  active : exceptionOf merged.info = (exceptionOf left).or (exceptionOf right)
  caught : caughtOf merged.info = orCaught (caughtOf left) (caughtOf right)
  uncaught : uncaughtOf merged.info = uncaughtOf left + uncaughtOf right - UInt32.ofNat merged.deleted.length
  deleted : (merged.deleted ++ (exceptionOf merged.info).toList).Perm
    ((exceptionOf left).toList ++ (exceptionOf right).toList)
  freed : (merged.freed ++ (merged.info.map (·.address)).toList).Perm
    ((left.map (·.address)).toList ++ (right.map (·.address)).toList)

/-- Two records with caught exceptions in one of them at most are merged. -/
theorem merge_pair (resolved : left.Resolved) (mergeable : MergeableInfos left right) :
    ∃ merged, mergePendingExceptions (some left) (some right) = some merged ∧
      MergedPair (some left) (some right) merged ∧ merged.info.any (·.rethrow) =
        (left.runtimeState.caughtExceptions.isEmpty && right.rethrow) := by
  have noRethrow := resolved.rethrow_eq_false mergeable.1
  obtain ⟨leftAddress, leftActive, leftRethrow, leftCaught, leftUncaught⟩ := left
  obtain ⟨rightAddress, rightActive, rightRethrow, rightCaught, rightUncaught⟩ := right
  obtain rfl : leftRethrow = false := noRethrow
  -- the records after the caught exceptions are merged
  have isCaught : mergeCaught ⟨leftAddress, leftActive, false, leftCaught, leftUncaught⟩
      ⟨rightAddress, rightActive, rightRethrow, rightCaught, rightUncaught⟩ = some
        (⟨leftAddress, leftActive, leftCaught.isEmpty && rightRethrow, orCaught leftCaught rightCaught, leftUncaught⟩,
          ⟨rightAddress, rightActive, rightRethrow, [], rightUncaught⟩) := by
    cases leftCaught with
    | nil => rfl
    | cons e caught =>
      obtain rfl : rightCaught = [] := mergeable.2.resolve_left (List.cons_ne_nil _ _)
      rfl
  rw [mergePendingExceptions, isCaught]
  cases leftActive with
  | some e =>
    refine ⟨_, rfl, ⟨rfl, rfl, ?_, ?_, ?_⟩, rfl⟩
    · cases rightActive with
      | none => simp [mergeActive, uncaughtOf, PendingExceptionInfo.destruct]
      | some e' =>
        simp only [mergeActive, uncaughtOf, PendingExceptionInfo.destruct, Option.elim, Option.isSome_some, if_true,
          Option.toList_some, List.append_nil, List.length_singleton]
        grind
    · exact List.perm_append_comm.trans (by simp [mergeActive, exceptionOf, PendingExceptionInfo.destruct])
    · exact List.Perm.swap _ _ _
  | none =>
    simp only [mergeActive]
    by_cases isEmpty : PendingExceptionInfo.empty ⟨leftAddress, rightActive, leftCaught.isEmpty && rightRethrow,
        ⟨orCaught leftCaught rightCaught, leftUncaught + rightUncaught⟩⟩
    · refine ⟨_, if_pos isEmpty, ?_⟩
      simp only [PendingExceptionInfo.empty, Bool.and_eq_true, Option.isNone_iff_eq_none, Bool.not_eq_true',
        List.isEmpty_iff, beq_iff_eq] at isEmpty
      obtain ⟨⟨⟨rfl, noRethrow⟩, noCaught⟩, noUncaught⟩ := isEmpty
      refine ⟨⟨rfl, noCaught.symm, ?_, ?_, .swap _ _ _⟩, noRethrow.symm⟩
      · simp [uncaughtOf, PendingExceptionInfo.destruct, noCaught, noUncaught]
      · simp [exceptionOf, PendingExceptionInfo.destruct, noCaught]
    · refine ⟨_, if_neg isEmpty, ⟨rfl, rfl, ?_, ?_, ?_⟩, rfl⟩
      · simp [uncaughtOf, PendingExceptionInfo.destruct]
      · simp [exceptionOf, PendingExceptionInfo.destruct]
      · exact List.Perm.swap _ _ _

/-- The merge of two records keeps the first exception exactly where a record that asks to throw again stands
to the right of one with both an active exception and caught ones, or with neither. -/
theorem MergedPair.resolvable_iff {merged : MergedExceptions ρ ε}
    (pair : MergedPair (some left) (some right) merged)
    (isRethrow : merged.info.any (·.rethrow) = (left.runtimeState.caughtExceptions.isEmpty && right.rethrow))
    (leftResolved : left.Resolved) (rightResolved : right.Resolved) (mergeable : MergeableInfos left right) :
    (activeOf merged.info = left.activeException.or right.activeException ∧
      ∀ info, merged.info = some info → info.Resolved) ↔ Resolvable left right := by
  have noRethrow := leftResolved.rethrow_eq_false mergeable.1
  -- the merged record by the fields that count
  have isActive : activeOf merged.info = (left.active.or right.active).elim
      (if left.runtimeState.caughtExceptions.isEmpty && right.rethrow then .unresolved else .nil)
      .exception := by
    have active : exceptionOf merged.info = left.active.or right.active := pair.active
    rw [← active, ← isRethrow]
    cases merged.info with
    | none => rfl
    | some info => exact info.activeException_eq
  have isResolved : (∀ info, merged.info = some info → info.Resolved) ↔
      (left.active.or right.active ≠ none →
        (left.runtimeState.caughtExceptions.isEmpty && right.rethrow) = false) := by
    have active : exceptionOf merged.info = left.active.or right.active := pair.active
    rw [← active, ← isRethrow]
    cases merged.info with
    | none => exact ⟨fun _ hasActive => absurd rfl hasActive, fun _ => by rintro _ ⟨⟩⟩
    | some info =>
      refine ⟨fun resolved hasActive => resolved info rfl hasActive, ?_⟩
      intro resolved info' isInfo hasActive
      obtain rfl := Option.some.inj isInfo
      exact resolved hasActive
  rw [isActive, isResolved, Resolvable]
  have isLeft : left.activeException = left.active.elim .nil .exception := by
    simpa [noRethrow] using left.activeException_eq
  rw [isLeft]
  -- a record that has an active exception does not ask to throw again
  have isRight : right.activeException = .unresolved ↔ right.active = none ∧ right.rethrow = true := by
    rw [PendingExceptionInfo.activeException]
    cases right.active <;> simp
  rw [isRight]
  cases hasLeft : left.active with
  | some e =>
    cases hasRight : right.active with
    | some e' => simp [ActiveException.or, rightResolved (by rw [hasRight]; rintro ⟨⟩)]
    | none => cases left.runtimeState.caughtExceptions <;> cases right.rethrow <;> simp [ActiveException.or]
  | none =>
    cases hasRight : right.active with
    | some e' =>
      have noRethrow := rightResolved (by rw [hasRight]; rintro ⟨⟩)
      simp [ActiveException.or, PendingExceptionInfo.activeException, hasRight, noRethrow]
    | none =>
      cases left.runtimeState.caughtExceptions <;> cases rethrows : right.rethrow <;>
        simp [ActiveException.or, PendingExceptionInfo.activeException, hasRight, rethrows]

/-- A merge with no record on one side. -/
theorem merge_none_left (info : Option (PendingExceptionInfo ρ ε)) : MergedPair none info ⟨info, [], []⟩ :=
  ⟨rfl, rfl, by simp [uncaughtOf], .refl _, .refl _⟩

theorem merge_none_right (info : Option (PendingExceptionInfo ρ ε)) : MergedPair info none ⟨info, [], []⟩ :=
  ⟨(Option.or_none ..).symm, (orCaught_nil _).symm, by simp [uncaughtOf], by simp [exceptionOf], by simp⟩

end Merge

/-! ### All merges of a grouping -/

/-- What goes in the two parts and in the merge of what they leave. -/
theorem perm_of_merge {α : Type} {gone gone' last end₁ end₂ final all all' : List α}
    (merged : (last ++ final).Perm (end₁ ++ end₂)) (left : (gone ++ end₁).Perm all)
    (right : (gone' ++ end₂).Perm all') : (gone ++ gone' ++ last ++ final).Perm (all ++ all') := by
  have inner : (gone' ++ (last ++ final)).Perm (end₁ ++ (gone' ++ end₂)) :=
    ((merged.append_left gone').trans (List.perm_append_comm_assoc _ _ _))
  calc (gone ++ gone' ++ last ++ final).Perm (gone ++ (end₁ ++ (gone' ++ end₂))) := by
        simpa only [List.append_assoc] using inner.append_left gone
    List.Perm _ ((gone ++ end₁) ++ (gone' ++ end₂)) := by rw [List.append_assoc]
    List.Perm _ (all ++ all') := left.append right

section Groupings

variable {infos infos' : List (Option (PendingExceptionInfo ρ ε))} {a b merged : MergedExceptions ρ ε}

/-- The merge of what two sequences of records left is what both leave, if it has the active exception. -/
theorem MergedAsSerial.merge (left : MergedAsSerial infos a) (right : MergedAsSerial infos' b)
    (pair : MergedPair a.info b.info merged) :
    MergedAsSerial (infos ++ infos') ⟨merged.info, a.deleted ++ b.deleted ++ merged.deleted,
      a.freed ++ b.freed ++ merged.freed⟩ ↔
        activeOf merged.info = (activeOf a.info).or (activeOf b.info) ∧
          ∀ info, merged.info = some info → info.Resolved := by
  constructor
  · intro serial
    exact ⟨by rw [serial.active, firstActive_append, left.active, right.active], serial.resolved⟩
  · rintro ⟨active, resolved⟩
    refine ⟨?_, resolved, ?_, ?_, ?_, ?_⟩
    · rw [active, firstActive_append, left.active, right.active]
    · rw [pair.caught, firstCaught_append, left.caught, right.caught]
    · rw [pair.uncaught, uncaughtSum_append, left.uncaught, right.uncaught, List.length_append, List.length_append,
        UInt32.ofNat_add, UInt32.ofNat_add]
      grind
    · rw [List.filterMap_append]
      exact perm_of_merge pair.deleted left.deleted right.deleted
    · rw [List.filterMap_append]
      exact perm_of_merge pair.freed left.freed right.freed

/-- A record alone. -/
theorem mergedAsSerial_leaf {info : Option (PendingExceptionInfo ρ ε)}
    (saved : ∀ record, info = some record → SavedException record) : MergedAsSerial [info] ⟨info, [], []⟩ where
  active := (ActiveException.or_nil _).symm
  resolved record isInfo := (saved record isInfo).resolved
  caught := (orCaught_nil _).symm
  uncaught := by simp [uncaughtSum]
  deleted := by cases h : exceptionOf info <;> simp [h]
  freed := by cases info <;> simp

/-- The last merge of a grouping has the property, where it is one of two records. -/
def MergesWith (P : PendingExceptionInfo ρ ε → PendingExceptionInfo ρ ε → Prop)
    (part : Grouping (Option (PendingExceptionInfo ρ ε))) : Prop :=
  ∀ left right a b l r, part = .join left right → mergeGrouping left = some a → mergeGrouping right = some b →
    a.info = some l → b.info = some r → P l r

/-- All merges of a grouping have it. -/
def AtMerges (P : PendingExceptionInfo ρ ε → PendingExceptionInfo ρ ε → Prop)
    (g : Grouping (Option (PendingExceptionInfo ρ ε))) : Prop :=
  ∀ part ∈ g.parts, MergesWith P part

/-- A grouping leaves what its records stand for. -/
def SerialPart (part : Grouping (Option (PendingExceptionInfo ρ ε))) : Prop :=
  ∃ merged, mergeGrouping part = some merged ∧ MergedAsSerial part.leaves merged

/-- The last merge of a grouping, where its two parts left what they stand for. -/
theorem serialPart_join {left right : Grouping (Option (PendingExceptionInfo ρ ε))} (serialLeft : SerialPart left)
    (serialRight : SerialPart right) (mergeable : MergesWith MergeableInfos (.join left right)) :
    SerialPart (.join left right) ↔ MergesWith Resolvable (.join left right) := by
  obtain ⟨a, isA, serialA⟩ := serialLeft
  obtain ⟨b, isB, serialB⟩ := serialRight
  have isJoin : mergeGrouping (.join left right) = (mergePendingExceptions a.info b.info).map fun merged =>
      ⟨merged.info, a.deleted ++ b.deleted ++ merged.deleted, a.freed ++ b.freed ++ merged.freed⟩ := by
    change mergeMerged (mergeGrouping left) (mergeGrouping right) = _
    rw [isA, isB, mergeMerged]
  -- where the merge gives a record, the grouping has the property if that record has
  have serial_iff : ∀ {merged}, mergePendingExceptions a.info b.info = some merged →
      MergedPair a.info b.info merged → (SerialPart (.join left right) ↔
        activeOf merged.info = (activeOf a.info).or (activeOf b.info) ∧
          ∀ info, merged.info = some info → info.Resolved) := by
    intro merged isMerged pair
    rw [isMerged, Option.map_some] at isJoin
    rw [← serialA.merge serialB pair, SerialPart, isJoin]
    exact ⟨fun ⟨_, isSame, serial⟩ => Option.some.inj isSame ▸ serial, fun serial => ⟨_, rfl, serial⟩⟩
  have merges_iff : MergesWith Resolvable (.join left right) ↔
      ∀ l r, a.info = some l → b.info = some r → Resolvable l r := by
    constructor
    · exact fun merges l r isL isR => merges left right a b l r rfl isA isB isL isR
    · intro merges left' right' a' b' l r isJoined isA' isB' isL isR
      obtain ⟨rfl, rfl⟩ := Grouping.join.inj isJoined
      obtain rfl := Option.some.inj (isA.symm.trans isA')
      obtain rfl := Option.some.inj (isB.symm.trans isB')
      exact merges l r isL isR
  rw [merges_iff]
  cases isL : a.info with
  | none =>
    rw [isL] at serial_iff
    refine iff_of_true ((serial_iff rfl (merge_none_left _)).2 ⟨rfl, serialB.resolved⟩) nofun
  | some l =>
    cases isR : b.info with
    | none =>
      rw [isL, isR] at serial_iff
      refine iff_of_true ((serial_iff rfl (merge_none_right _)).2
        ⟨(ActiveException.or_nil _).symm, fun info isInfo => serialA.resolved info (isL.trans isInfo)⟩) nofun
    | some r =>
      rw [isL, isR] at serial_iff
      have canMerge := mergeable left right a b l r rfl isA isB isL isR
      have resolvedL : l.Resolved := serialA.resolved l isL
      have resolvedR : r.Resolved := serialB.resolved r isR
      obtain ⟨merged, isMerged, pair, isRethrow⟩ := merge_pair resolvedL canMerge
      refine (serial_iff isMerged pair).trans ((pair.resolvable_iff isRethrow resolvedL resolvedR canMerge).trans ?_)
      constructor
      · intro resolvable l' r' isL' isR'
        obtain rfl := Option.some.inj isL'
        obtain rfl := Option.some.inj isR'
        exact resolvable
      · exact fun resolvable => resolvable l r rfl rfl

/-- For every sequence of records as the code saves them and every grouping of its merges in which the left
record is not unresolved and one of the two at most has caught exceptions: all records on the way stand for
theirs in the serial order, exactly if each record that asks to throw again has to its left a record with both
an active exception and caught ones, or with neither. -/
theorem merge_pending_exceptions_serial (g : Grouping (Option (PendingExceptionInfo ρ ε)))
    (saved : ∀ info, some info ∈ g.leaves → SavedException info) (mergeable : AtMerges MergeableInfos g) :
    (∀ part ∈ g.parts, SerialPart part) ↔ AtMerges Resolvable g := by
  induction g with
  | leaf info =>
    refine iff_of_true (fun part member => ?_) fun part member => ?_
    · obtain rfl := List.mem_singleton.1 member
      refine ⟨⟨info, [], []⟩, rfl, mergedAsSerial_leaf fun record isInfo => saved record ?_⟩
      rw [← isInfo]
      exact List.mem_singleton_self info
    · obtain rfl := List.mem_singleton.1 member
      intro left right a b l r isJoin
      cases isJoin
  | join left right ihLeft ihRight =>
    rw [AtMerges, Grouping.forall_parts_join] at mergeable ⊢
    obtain ⟨mergeableLeft, mergeableRight, mergeableHere⟩ := mergeable
    rw [Grouping.forall_parts_join]
    have left_iff := ihLeft (fun info member => saved info (List.mem_append_left _ member)) mergeableLeft
    have right_iff := ihRight (fun info member => saved info (List.mem_append_right _ member)) mergeableRight
    constructor
    · rintro ⟨inLeft, inRight, here⟩
      exact ⟨left_iff.1 inLeft, right_iff.1 inRight, (serialPart_join (inLeft left left.self_mem_parts)
        (inRight right right.self_mem_parts) mergeableHere).1 here⟩
    · rintro ⟨inLeft, inRight, here⟩
      have serialLeft := left_iff.2 inLeft
      have serialRight := right_iff.2 inRight
      exact ⟨serialLeft, serialRight, (serialPart_join (serialLeft left left.self_mem_parts)
        (serialRight right right.self_mem_parts) mergeableHere).2 here⟩

/-- Two records that are merged. -/
theorem atMerges_pair {P : PendingExceptionInfo ρ ε → PendingExceptionInfo ρ ε → Prop}
    {left right : PendingExceptionInfo ρ ε} (holds : P left right) :
    AtMerges P (.join (.leaf (some left)) (.leaf (some right))) := by
  intro part member left' right' a b l r isJoined isA isB isL isR
  simp only [Grouping.parts, List.mem_cons, List.mem_append, List.not_mem_nil, or_false] at member
  rcases member with rfl | rfl | rfl
  · obtain ⟨rfl, rfl⟩ := Grouping.join.inj isJoined
    cases isA
    cases isB
    cases isL
    cases isR
    exact holds
  · cases isJoined
  · cases isJoined

/-- The records of two spawned functions that throw. -/
def twoThrown : Grouping (Option (PendingExceptionInfo Nat Nat)) :=
  .join (.leaf (some (returnException 0 ⟨[], 1⟩ (some 10)))) (.leaf (some (returnException 1 ⟨[], 1⟩ (some 11))))

/-- They are merged to the first of them. -/
theorem merge_pending_exceptions_serial_throws :
    (∀ info, some info ∈ twoThrown.leaves → SavedException info) ∧ AtMerges MergeableInfos twoThrown ∧
      ∀ part ∈ twoThrown.parts, SerialPart part := by
  have saved : ∀ info, some info ∈ twoThrown.leaves → SavedException info := by
    intro info member
    simp only [twoThrown, Grouping.leaves, List.singleton_append, List.mem_cons, Option.some.injEq,
      List.not_mem_nil, or_false] at member
    rcases member with rfl | rfl <;> exact .return _ _ _
  have mergeable : AtMerges MergeableInfos twoThrown := atMerges_pair ⟨by decide, .inl rfl⟩
  exact ⟨saved, mergeable, (merge_pending_exceptions_serial twoThrown saved mergeable).2
    (atMerges_pair fun unresolved => absurd unresolved (by decide))⟩

/-- The records of a spawned function that throws, and of one to its right that throws again the exception
that its caller caught. -/
def thrownAndRethrown : Grouping (Option (PendingExceptionInfo Nat Nat)) :=
  .join (.leaf (some (returnException 0 ⟨[], 1⟩ (some 10)))) (.leaf (some (returnException 1 ⟨[11], 0⟩ none)))

/-- The merged record has an active exception, and asks to throw again as well. -/
theorem merged_record_rethrows :
    (∀ info, some info ∈ thrownAndRethrown.leaves → SavedException info) ∧
      AtMerges MergeableInfos thrownAndRethrown ∧ ¬SerialPart thrownAndRethrown := by
  refine ⟨?_, atMerges_pair ⟨by decide, .inl rfl⟩, ?_⟩
  · intro info member
    simp only [thrownAndRethrown, Grouping.leaves, List.singleton_append, List.mem_cons, Option.some.injEq,
      List.not_mem_nil, or_false] at member
    rcases member with rfl | rfl <;> exact .return _ _ _
  · rintro ⟨merged, isMerged, serial⟩
    cases isMerged
    have noRethrow := serial.resolved ⟨0, some 10, true, ⟨[11], 1⟩⟩ rfl (by decide)
    cases noRethrow

end Groupings

end CilkL
