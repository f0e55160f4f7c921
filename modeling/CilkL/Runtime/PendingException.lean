/-
Module: CilkL.Runtime.PendingException
Layer: Runtime
Purpose: The records of pending exceptions of `except-gcc.cpp`, how they are made and how they are merged. An
  exception object and the memory of a record have names; a list of caught exceptions has the most recent one
  first. A failed assertion has no result.
Imports: CilkL.Library.Grouping
Trusted boundary: human-reviewed spec (translated from except-gcc.cpp)
Main exports: PendingExceptionInfo, mergePendingExceptions, mergeGrouping
Open obligations: none
-/
import CilkL.Library.Grouping

namespace CilkL

/-- `__cxa_eh_globals`, of exceptions `ε`. -/
structure EhGlobals (ε : Type) where
  caughtExceptions : List ε
  uncaughtExceptions : UInt32
deriving DecidableEq, Repr

/-- `pending_exception_info`, in memory that has the name `address`. -/
structure PendingExceptionInfo (ρ ε : Type) where
  address : ρ
  /-- Active exception at time of suspend. -/
  active : Option ε
  rethrow : Bool
  runtimeState : EhGlobals ε
deriving DecidableEq, Repr

/-- The active exception of a record, as the comment on `__cilkrts_merge_pending_exceptions` has it. -/
inductive ActiveException (ε : Type) where
  | nil
  /-- The exception that was caught last is to be thrown again. -/
  | unresolved
  | exception (e : ε)
deriving DecidableEq, Repr

variable {ρ ε : Type}

namespace PendingExceptionInfo

/-- `pending_exception_info::make`, which clears the state of the C++ runtime. -/
def make (address : ρ) (stateIn : EhGlobals ε) (excIn : Option ε) (rethrowIn : Bool) :
    PendingExceptionInfo ρ ε × EhGlobals ε :=
  (⟨address, excIn, rethrowIn, stateIn⟩, ⟨[], 0⟩)

/-- `pending_exception_info::empty`. -/
def empty (info : PendingExceptionInfo ρ ε) : Bool :=
  info.active.isNone && !info.rethrow && info.runtimeState.caughtExceptions.isEmpty &&
    info.runtimeState.uncaughtExceptions == 0

/-- The exceptions that `pending_exception_info::destruct` deletes. -/
def destruct (info : PendingExceptionInfo ρ ε) : List ε :=
  info.active.toList ++ info.runtimeState.caughtExceptions

def activeException (info : PendingExceptionInfo ρ ε) : ActiveException ε :=
  match info.active with
  | some e => .exception e
  | none => if info.rethrow then .unresolved else .nil

end PendingExceptionInfo

/-- The record of `__cilkrts_return_exception`, where the parent was stolen. -/
def returnException (address : ρ) (state : EhGlobals ε) (exc : Option ε) : PendingExceptionInfo ρ ε :=
  (PendingExceptionInfo.make address state exc exc.isNone).1

/-- The record of `__cilkrts_save_exception_state`. -/
def saveExceptionState (address : ρ) (state : EhGlobals ε) : PendingExceptionInfo ρ ε :=
  (PendingExceptionInfo.make address state none false).1

/-- The record of `__cilkrts_c_sync_except`. -/
def syncExcept (address : ρ) (state : EhGlobals ε) (exc : Option ε) : PendingExceptionInfo ρ ε :=
  (PendingExceptionInfo.make address state exc false).1

/-- A record as one of these three functions makes it. -/
inductive SavedException : PendingExceptionInfo ρ ε → Prop where
  | return (address : ρ) (state : EhGlobals ε) (exc : Option ε) :
      SavedException (returnException address state exc)
  | state (address : ρ) (state : EhGlobals ε) : SavedException (saveExceptionState address state)
  | sync (address : ρ) (state : EhGlobals ε) (exc : Option ε) : SavedException (syncExcept address state exc)

/-- What a merge leaves: the record, and what it deleted and freed. -/
structure MergedExceptions (ρ ε : Type) where
  info : Option (PendingExceptionInfo ρ ε)
  /-- The arguments of `_Unwind_DeleteException`. -/
  deleted : List ε
  /-- The arguments of `__cilkrts_frame_free`. -/
  freed : List ρ
deriving DecidableEq, Repr

/-- The caught exceptions and the flag, of a record and the one to its right. -/
def mergeCaught (left right : PendingExceptionInfo ρ ε) :
    Option (PendingExceptionInfo ρ ε × PendingExceptionInfo ρ ε) :=
  if left.runtimeState.caughtExceptions.isEmpty then
    if left.rethrow then none
    else some (
      { left with
        rethrow := right.rethrow
        runtimeState := { left.runtimeState with
          caughtExceptions := right.runtimeState.caughtExceptions } },
      { right with runtimeState := { right.runtimeState with caughtExceptions := [] } })
  else if right.runtimeState.caughtExceptions.isEmpty then some (left, right)
  else none

/-- The active exception and the count of uncaught exceptions. -/
def mergeActive (left right : PendingExceptionInfo ρ ε) : PendingExceptionInfo ρ ε × PendingExceptionInfo ρ ε :=
  let rightUncaught := right.runtimeState.uncaughtExceptions
  match left.active with
  | none =>
      ({ left with
        active := right.active
        runtimeState := { left.runtimeState with
          uncaughtExceptions := left.runtimeState.uncaughtExceptions + rightUncaught } },
      { right with active := none })
  | some _ =>
      -- subtract 1 if the right exception is being destructed
      ({ left with
        runtimeState := { left.runtimeState with
          uncaughtExceptions := left.runtimeState.uncaughtExceptions +
            (rightUncaught - if right.active.isSome then 1 else 0) } },
      right)

/-- `__cilkrts_merge_pending_exceptions`. -/
def mergePendingExceptions :
    Option (PendingExceptionInfo ρ ε) → Option (PendingExceptionInfo ρ ε) → Option (MergedExceptions ρ ε)
  | none, right => some ⟨right, [], []⟩
  | left, none => some ⟨left, [], []⟩
  | some left, some right =>
      match mergeCaught left right with
      | none => none
      | some (left, right) =>
          let merged := mergeActive left right
          -- if there is no state left, the left record goes too
          if merged.1.empty then
            some ⟨none, merged.2.destruct ++ merged.1.destruct, [merged.2.address, merged.1.address]⟩
          else some ⟨some merged.1, merged.2.destruct, [merged.2.address]⟩

/-- A merge of what other merges left. -/
def mergeMerged (left right : Option (MergedExceptions ρ ε)) : Option (MergedExceptions ρ ε) :=
  match left, right with
  | some left, some right =>
      (mergePendingExceptions left.info right.info).map fun merged =>
        ⟨merged.info, left.deleted ++ right.deleted ++ merged.deleted,
          left.freed ++ right.freed ++ merged.freed⟩
  | _, _ => none

/-- All merges of a grouping of records; a place without a record is `NULL`. -/
def mergeGrouping (g : Grouping (Option (PendingExceptionInfo ρ ε))) : Option (MergedExceptions ρ ε) :=
  g.fold mergeMerged fun info => some ⟨info, [], []⟩

end CilkL
