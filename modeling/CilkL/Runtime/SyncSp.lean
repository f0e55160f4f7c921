/-
Module: CilkL.Runtime.SyncSp
Layer: Runtime
Purpose: The field `sync_sp` of the full frames, as the 64-bit word it is: `__cilkrts_put_stack` adds the stack
  pointer of a frame that is suspended, `__cilkrts_take_stack` subtracts the stack pointer that a frame is
  resumed at, and `__cilkrts_adjust_stack` adds the size of an array that left the stack; with
  `sysdep_reset_jump_buffers_for_resume` and `cilkrts_resume`, which take the stack, and the saving of a
  context by the user's code. Calls on all the full frames go on in one order, on any stacks. What the field
  is for is a ledger for each full frame: what is put, taken and adjusted in the calls on it.
Imports: CilkL.Library.AlternatingLedger, CilkL.Runtime.CallStack
Trusted boundary: human-reviewed spec (translated from full_frame.c, scheduler.c and sysdep-unix.c)
Main exports: StackWord, SyncMemory, SyncMemory.putStack, SyncMemory.takeStack, SyncMemory.adjustStack,
  SyncMemory.cilkrtsResume, SyncCall, SyncMemory.run, SyncMemory.ledger
Open obligations: none
-/
import CilkL.Library.AlternatingLedger
import CilkL.Runtime.CallStack

namespace CilkL

/-- A stack pointer, a difference of two, or a size. -/
abbrev StackWord := BitVec 64

/-- `__cilkrts_stack_frame`. -/
structure SavedContext where
  /-- `SP(sf)`. -/
  sp : StackWord
  /-- `CILK_FRAME_SUSPENDED` in `flags`. -/
  suspended : Bool
deriving DecidableEq, Repr

/-- The stack frames, and the field `sync_sp` of the full frames. -/
structure SyncMemory (φ ψ : Type) where
  frames : φ → SavedContext
  syncSp : ψ → StackWord

/-- `get_sp_for_executing_sf`: 256 bytes below the base of the stack, aligned. -/
def getSpForExecutingSf (stackBase : StackWord) : StackWord :=
  (stackBase - 256) &&& ~~~(256 - 1)

variable {φ ψ : Type} [DecidableEq φ] [DecidableEq ψ]

namespace SyncMemory

/-- A store into `SP(sf)`. -/
def setSp (memory : SyncMemory φ ψ) (sf : φ) (sp : StackWord) : SyncMemory φ ψ :=
  { memory with frames := setAt memory.frames sf { memory.frames sf with sp := sp } }

/-- A store into `ff->sync_sp`. -/
def setSyncSp (memory : SyncMemory φ ψ) (ff : ψ) (syncSp : StackWord) : SyncMemory φ ψ :=
  { memory with syncSp := setAt memory.syncSp ff syncSp }

/-- The store of `__cilkrts_make_full_frame`. -/
def makeFullFrame (memory : SyncMemory φ ψ) (ff : ψ) : SyncMemory φ ψ :=
  memory.setSyncSp ff 0

/-- `__cilkrts_put_stack`. -/
def putStack (memory : SyncMemory φ ψ) (ff : ψ) (sf : φ) : SyncMemory φ ψ :=
  let syncSpI := memory.syncSp ff
  let sp := (memory.frames sf).sp
  memory.setSyncSp ff (sp + syncSpI)

/-- `__cilkrts_take_stack`. -/
def takeStack (memory : SyncMemory φ ψ) (ff : ψ) (sp : StackWord) : SyncMemory φ ψ :=
  let syncSpI := memory.syncSp ff - sp
  memory.setSyncSp ff syncSpI

/-- `__cilkrts_adjust_stack`. -/
def adjustStack (memory : SyncMemory φ ψ) (ff : ψ) (size : StackWord) : SyncMemory φ ψ :=
  memory.setSyncSp ff (memory.syncSp ff + size)

/-- `sysdep_reset_jump_buffers_for_resume`, on the stack of the fiber. -/
def resetJumpBuffersForResume (memory : SyncMemory φ ψ) (stackBase : StackWord) (ff : ψ) (sf : φ) :
    SyncMemory φ ψ :=
  let sp := getSpForExecutingSf stackBase
  (memory.setSp sf sp).takeStack ff sp

/-- The store of `sysdep_longjmp_to_sf`. -/
def longjmpToSf (memory : SyncMemory φ ψ) (newSp : StackWord) (sf : φ) : SyncMemory φ ψ :=
  memory.setSp sf newSp

/-- `cilkrts_resume`. -/
def cilkrtsResume (memory : SyncMemory φ ψ) (sf : φ) (ff : ψ) : SyncMemory φ ψ :=
  let syncSp := memory.syncSp ff
  let memory := memory.takeStack ff syncSp
  let memory := { memory with frames := setAt memory.frames sf { memory.frames sf with suspended := false } }
  memory.longjmpToSf syncSp sf

end SyncMemory

/-- The calls that touch the field, and the saving of a context. -/
inductive SyncCall (φ ψ : Type) where
  | putStack (ff : ψ) (sf : φ)
  | takeStack (ff : ψ) (sp : StackWord)
  | adjustStack (ff : ψ) (size : StackWord)
  | resetJumpBuffersForResume (stackBase : StackWord) (ff : ψ) (sf : φ)
  | cilkrtsResume (sf : φ) (ff : ψ)
  /-- The user's code saves its context at a spawn or a sync, or the runtime clears the one of a loot. -/
  | saveContext (sf : φ) (context : SavedContext)
deriving DecidableEq, Repr

namespace SyncMemory

/-- One call. -/
def step (memory : SyncMemory φ ψ) : SyncCall φ ψ → SyncMemory φ ψ
  | .putStack ff sf => memory.putStack ff sf
  | .takeStack ff sp => memory.takeStack ff sp
  | .adjustStack ff size => memory.adjustStack ff size
  | .resetJumpBuffersForResume stackBase ff sf => memory.resetJumpBuffersForResume stackBase ff sf
  | .cilkrtsResume sf ff => memory.cilkrtsResume sf ff
  | .saveContext sf context => { memory with frames := setAt memory.frames sf context }

/-- Calls one after another. -/
def run (memory : SyncMemory φ ψ) (calls : List (SyncCall φ ψ)) : SyncMemory φ ψ :=
  calls.foldl step memory

/-- What a call on a full frame puts, takes or adjusts; `none` for calls on others. -/
def posting (memory : SyncMemory φ ψ) (ff : ψ) : SyncCall φ ψ → Option (Posting StackWord)
  | .putStack x sf => if x = ff then some (.credit (memory.frames sf).sp) else none
  | .takeStack x sp => if x = ff then some (.debit sp) else none
  | .adjustStack x size => if x = ff then some (.adjustment size) else none
  | .resetJumpBuffersForResume stackBase x _ =>
      if x = ff then some (.debit (getSpForExecutingSf stackBase)) else none
  | .cilkrtsResume _ x => if x = ff then some (.debit (memory.syncSp x)) else none
  | .saveContext _ _ => none

/-- The ledger of a full frame: what calls on it put, take and adjust, in their order. -/
def ledger (memory : SyncMemory φ ψ) (ff : ψ) : List (SyncCall φ ψ) → List (Posting StackWord)
  | [] => []
  | call :: rest =>
      match memory.posting ff call with
      | some posting => posting :: (memory.step call).ledger ff rest
      | none => (memory.step call).ledger ff rest

end SyncMemory

variable {ω β : Type}

/-- The frames of a promotion, with the stack pointers as the words that hold them. -/
def FrameHeap.syncMemory (heap : FrameHeap ω φ ψ β) : SyncMemory φ ψ where
  frames sf := { sp := BitVec.ofInt 64 (heap.frames sf).sp, suspended := (heap.frames sf).flags.suspended }
  syncSp ff := BitVec.ofInt 64 (heap.fulls ff).syncSp

end CilkL
