/-
Module: CilkL.Runtime.RecordReplay
Layer: Runtime
Purpose: The log of the record and replay support: what is written for a steal, for a sync and for an
  orphaned child, how a line is read back and loaded, and how an entry is matched against a pedigree. A
  pedigree is the list of the ranks along its parent pointers, so the empty list is the null pointer.
  The optional sequence number (`INCLUDE_SEQUENCE_NUMBER`) is off, as in the source.
Imports: CilkL.Library.CText
Trusted boundary: human-reviewed spec (translated from record-replay.cpp)
Main exports: PedigreeBuffer, walkPedigreeNodes, writeToReplayLog, ReplayRecord, ReplayEntry,
  ReplayEntry.load, ReplayEntry.match, scanRecord, loadRecord
Open obligations: none
-/
import CilkL.Library.CText

namespace CilkL

/-- `ped_type_t`. -/
inductive PedType where
  | unknown
  | steal
  | sync
  | orphaned
  | last
  deriving DecidableEq, Repr

/-- `PED_TYPE_STR_STEAL`. -/
def pedTypeStrSteal : List Char := ['S', 't', 'e', 'a', 'l']

/-- `PED_TYPE_STR_SYNC`. -/
def pedTypeStrSync : List Char := ['S', 'y', 'n', 'c']

/-- `PED_TYPE_STR_ORPHANED`. -/
def pedTypeStrOrphaned : List Char := ['O', 'r', 'p', 'h', 'a', 'n', 'e', 'd']

/-- `PED_TYPE_SIZE`. -/
def pedTypeSize : Nat := 16

/-- `PEDIGREE_BUFF_SIZE`. -/
def pedigreeBuffSize : Nat := 512

/-- The array `pedigree` of `write_to_replay_log`: the characters before `p`, and how many bytes from the
start of the array up to the last one that a call has written. -/
structure PedigreeBuffer where
  text : List Char
  written : Nat
  deriving DecidableEq, Repr

/-- `p += cilk_snprintf_s(p, PEDIGREE_BUFF_SIZE, ...)`. The call is told that all of the array lies ahead
of `p`, so it stores up to one character less than that and a terminator, wherever `p` is. A piece is
shorter than the array, so the count returned is the count of characters stored. -/
def PedigreeBuffer.snprintf (b : PedigreeBuffer) (piece : List Char) : PedigreeBuffer :=
  let stored := piece.take (pedigreeBuffSize - 1)
  { text := b.text ++ stored, written := max b.written (b.text.length + stored.length + 1) }

/-- `walk_pedigree_nodes`, which the null pointer never reaches. -/
def walkPedigreeNodes (b : PedigreeBuffer) : List UInt64 → PedigreeBuffer
  | [] => b
  | rank :: parent =>
    let b := if parent = [] then b else (walkPedigreeNodes b parent).snprintf ['_']
    b.snprintf (printUnsigned rank.toNat)

/-- What `write_to_replay_log` leaves in its array. -/
def pedigreeField (initialNode : List UInt64) : PedigreeBuffer :=
  if initialNode = [] then { text := ['0'], written := 2 }
  else walkPedigreeNodes { text := [], written := 0 } initialNode

/-- `write_to_replay_log`: the line `fprintf` writes with `"%s %s %d %d\n"`. -/
def writeToReplayLog (type : List Char) (initialNode : List UInt64) (i1 : Int32 := -1)
    (i2 : Int32 := -1) : List Char :=
  type ++ ' ' :: ((pedigreeField initialNode).text ++
    ' ' :: (printInt i1.toInt ++ ' ' :: (printInt i2.toInt ++ ['\n'])))

/-- The records that hold a pedigree, with the victim of a steal. -/
inductive ReplayRecord where
  | steal (victim : Int32)
  | sync
  | orphaned
  deriving DecidableEq, Repr

/-- The type a record is loaded with. -/
def ReplayRecord.type : ReplayRecord → PedType
  | .steal _ => .steal
  | .sync => .sync
  | .orphaned => .orphaned

/-- `replay_record_steal_internal`, `replay_record_sync_internal` and `replay_record_orphaned_internal`. -/
def ReplayRecord.write (node : List UInt64) : ReplayRecord → List Char
  | .steal victim => writeToReplayLog pedTypeStrSteal node victim
  | .sync => writeToReplayLog pedTypeStrSync node
  | .orphaned => writeToReplayLog pedTypeStrOrphaned node

/-- `replay_entry_t`. The array `m_reverse_pedigree` and its length `m_pedigree_len` are one list; it is
copied from an array of half of `PEDIGREE_BUFF_SIZE` terms, so its length fits the `int16_t`. -/
structure ReplayEntry where
  m_reverse_pedigree : List UInt64
  m_type : PedType
  m_value : Int16
  deriving DecidableEq, Repr

/-- The loop of `load` that converts the terms of a pedigree, with the free slots of `temp_pedigree`. It
is undefined when they run out. -/
def loadTerms : Nat → List Char → Option (List UInt64)
  | 0, _ => none
  | room + 1, p =>
    match strtol p with
    | (term, []) => some [UInt64.ofInt term]
    | (term, _ :: p) => (loadTerms room p).map (UInt64.ofInt term :: ·)

/-- `replay_entry_t::load`; the entry as it was before counts only for a type that is not known, where
the pedigree is left alone. -/
def ReplayEntry.load (entry : ReplayEntry) (type pedigreeStr : List Char) (value1 : Int32) :
    Option ReplayEntry :=
  let finish (type : PedType) (value : Int16) : Option ReplayEntry :=
    (loadTerms (pedigreeBuffSize / 2) pedigreeStr).map fun terms =>
      { m_reverse_pedigree := terms.reverse, m_type := type, m_value := value }
  if type = pedTypeStrSteal then finish .steal value1.toInt16
  else if type = pedTypeStrSync then finish .sync (-1)
  else if type = pedTypeStrOrphaned then finish .orphaned (-1)
  else some { entry with m_type := .unknown, m_value := -1 }

/-- The loop of `match` over the chain and the recorded terms, and the test that both are exhausted. -/
def matchTerms : List UInt64 → List UInt64 → Bool
  | rank :: parent, term :: terms => if rank ≠ term then false else matchTerms parent terms
  | node, terms => node.isEmpty && terms.isEmpty

/-- `replay_entry_t::match`. -/
def ReplayEntry.match (entry : ReplayEntry) (type : PedType) (node : List UInt64)
    (victim : Int32 := -1) : Bool :=
  if type ≠ entry.m_type then false
  else if type = .steal ∧ victim ≠ entry.m_value.toInt32 then false
  else matchTerms node entry.m_reverse_pedigree

/-- The variables `load_recorded_log` reads a line into. -/
structure LogFields where
  ped_type : List Char
  ped_str : List Char
  i1 : Int32
  i2 : Int32
  deriving DecidableEq, Repr

/-- `%s` into an array, which is undefined when the word and its terminator do not fit. -/
def scanStringInto (size : Nat) (text : List Char) : Option (List Char × List Char) := do
  let (word, rest) ← scanString text
  if word.length < size then some (word, rest) else none

/-- `fscanf(f, "%s %s %d %d\n", ...)` in `load_recorded_log`, with the rest of the file. There is no
result when one of the four fields is missing, which the assertion after it excludes, or when a word
overruns its array. -/
def scanRecord (text : List Char) : Option (LogFields × List Char) := do
  let (type, text) ← scanStringInto pedTypeSize text
  let (pedigree, text) ← scanStringInto pedigreeBuffSize (skipSpace text)
  let (i1, text) ← scanInt (skipSpace text)
  let (i2, text) ← scanInt (skipSpace text)
  some ({ ped_type := type, ped_str := pedigree, i1 := Int32.ofInt i1, i2 := Int32.ofInt i2 },
    skipSpace text)

/-- One pass of the loop of `load_recorded_log` over a line that holds a pedigree. -/
def loadRecord (entry : ReplayEntry) (text : List Char) : Option (ReplayEntry × List Char) := do
  let (fields, text) ← scanRecord text
  let entry ← entry.load fields.ped_type fields.ped_str fields.i1
  some (entry, text)

end CilkL
