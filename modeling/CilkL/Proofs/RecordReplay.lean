/-
Module: CilkL.Proofs.RecordReplay
Layer: Proofs
Purpose: What a replay log entry says after it was written and loaded again. The printed pedigree is its
  ranks from the root, joined by underscores; the loader splits it at the same places, so the two agree
  as long as the text fits the array, which nothing checks, and the signed readers can hold the values.
Imports: CilkL.Runtime.RecordReplay
Trusted boundary: none
Main exports: walkPedigreeNodes_eq, loadTerms_joinRanks, match_iff, loadRecord_write,
  replay_round_trip_iff, replay_overruns_array
Open obligations: none
-/
import CilkL.Runtime.RecordReplay

namespace CilkL

/-- The ranks, the root first, joined by underscores. -/
def joinRanks : List UInt64 → List Char
  | [] => []
  | [rank] => printUnsigned rank.toNat
  | rank :: ranks => printUnsigned rank.toNat ++ '_' :: joinRanks ranks

/-- A rank before others is followed by an underscore. -/
theorem joinRanks_cons_of_ne_nil {rank : UInt64} {ranks : List UInt64} (more : ranks ≠ []) :
    joinRanks (rank :: ranks) = printUnsigned rank.toNat ++ '_' :: joinRanks ranks := by
  cases ranks with
  | nil => exact absurd rfl more
  | cons next ranks => rfl

/-- A rank after others follows an underscore. -/
theorem joinRanks_concat {ranks : List UInt64} (rank : UInt64) (more : ranks ≠ []) :
    joinRanks (ranks ++ [rank]) = joinRanks ranks ++ '_' :: printUnsigned rank.toNat := by
  induction ranks with
  | nil => exact absurd rfl more
  | cons first ranks ih =>
    cases ranks with
    | nil => rfl
    | cons next ranks =>
      have joined := ih (List.cons_ne_nil _ _)
      rw [List.cons_append, joinRanks_cons_of_ne_nil (by simp), joined,
        joinRanks_cons_of_ne_nil (List.cons_ne_nil _ _)]
      simp

/-- The characters of the joined ranks and the terminator: for each rank its digits, and the underscore or
the terminator after it. -/
theorem length_joinRanks {ranks : List UInt64} (more : ranks ≠ []) :
    (joinRanks ranks).length + 1 = (ranks.map fun rank => Nat.log 10 rank.toNat + 2).sum := by
  induction ranks with
  | nil => exact absurd rfl more
  | cons rank ranks ih =>
    by_cases last : ranks = []
    · subst last
      simp [joinRanks, length_printUnsigned]
    · have rest := ih last
      rw [joinRanks_cons_of_ne_nil last, List.map_cons, List.sum_cons, ← rest]
      simp only [List.length_append, List.length_cons, length_printUnsigned]
      omega

/-- A printed rank has at most twenty digits. -/
theorem length_printUnsigned_rank (rank : UInt64) : (printUnsigned rank.toNat).length ≤ 20 := by
  rw [length_printUnsigned]
  have small : rank.toNat < 10 ^ 20 := lt_trans rank.toNat_lt (by decide)
  have log := Nat.log_lt_of_lt_pow' (by decide) small
  omega

/-- A piece shorter than the array is stored whole. -/
theorem PedigreeBuffer.snprintf_of_length_lt {b : PedigreeBuffer} {piece : List Char}
    (short : piece.length < pedigreeBuffSize) :
    b.snprintf piece
      = { text := b.text ++ piece, written := max b.written (b.text.length + piece.length + 1) } := by
  have whole : piece.take (pedigreeBuffSize - 1) = piece := List.take_of_length_le (by omega)
  rw [PedigreeBuffer.snprintf, whole]

/-- The walk prints the joined ranks at `p` and writes nothing behind the terminator. -/
theorem walkPedigreeNodes_eq {node : List UInt64} (more : node ≠ []) (b : PedigreeBuffer) :
    walkPedigreeNodes b node
      = { text := b.text ++ joinRanks node.reverse,
          written := max b.written (b.text.length + (joinRanks node.reverse).length + 1) } := by
  induction node generalizing b with
  | nil => exact absurd rfl more
  | cons rank parent ih =>
    have short : (printUnsigned rank.toNat).length < pedigreeBuffSize :=
      lt_of_le_of_lt (length_printUnsigned_rank rank) (by decide)
    by_cases root : parent = []
    · subst root
      simp only [walkPedigreeNodes, if_true, PedigreeBuffer.snprintf_of_length_lt short]
      rfl
    · have walked := ih root b
      have separated : (walkPedigreeNodes b parent).snprintf ['_'] = _ :=
        PedigreeBuffer.snprintf_of_length_lt (by decide)
      simp only [walkPedigreeNodes, if_neg root]
      rw [separated, PedigreeBuffer.snprintf_of_length_lt short, walked, List.reverse_cons,
        joinRanks_concat rank (by simpa using root)]
      simp only [List.append_assoc, List.singleton_append, List.length_append, List.length_cons,
        List.length_nil, PedigreeBuffer.mk.injEq, true_and]
      omega

/-- A rank as the signed reader returns it. -/
def clampRank (rank : UInt64) : UInt64 := UInt64.ofInt (min (rank.toNat : Int) longMax)

/-- A natural number below `2 ^ 64` is converted as it is. -/
theorem uint64_ofInt_natCast {n : Nat} (small : n < 2 ^ 64) :
    UInt64.ofInt (n : Int) = UInt64.ofNat n := by
  have reduced : ((n : Int) % 2 ^ 64).toNat = n := by omega
  rw [UInt64.ofInt, reduced]

/-- The reader returns a rank unchanged exactly when it is at most `LONG_MAX`. -/
theorem clampRank_eq_iff {rank : UInt64} : clampRank rank = rank ↔ rank.toNat < 2 ^ 63 := by
  by_cases small : rank.toNat < 2 ^ 63
  · have kept : min (rank.toNat : Int) longMax = rank.toNat := by
      simp only [longMax]
      omega
    simp only [clampRank, kept, small, iff_true]
    rw [uint64_ofInt_natCast rank.toNat_lt]
    exact UInt64.ofNat_toNat
  · have clamped : min (rank.toNat : Int) longMax = ((2 ^ 63 - 1 : Nat) : Int) := by
      simp only [longMax]
      omega
    simp only [clampRank, clamped, small, iff_false]
    rw [uint64_ofInt_natCast (by decide)]
    intro same
    have value : (UInt64.ofNat (2 ^ 63 - 1)).toNat = rank.toNat := congrArg UInt64.toNat same
    have saturated : (UInt64.ofNat (2 ^ 63 - 1)).toNat = 2 ^ 63 - 1 := by decide
    omega

/-- The victim survives the conversion to `int16_t` exactly when it is in its range. -/
theorem eq_toInt32_toInt16_iff {victim : Int32} :
    victim = victim.toInt16.toInt32 ↔ -2 ^ 15 ≤ victim.toInt ∧ victim.toInt < 2 ^ 15 := by
  rw [← Int32.toInt_inj, Int16.toInt_toInt32, Int32.toInt_toInt16, Int.bmod_def]
  omega

/-- The loader splits the joined ranks where the writer joined them. -/
theorem loadTerms_joinRanks {ranks : List UInt64} {room : Nat} (more : ranks ≠ [])
    (fits : ranks.length ≤ room) : loadTerms room (joinRanks ranks) = some (ranks.map clampRank) := by
  induction ranks generalizing room with
  | nil => exact absurd rfl more
  | cons rank ranks ih =>
    cases room with
    | zero => simp at fits
    | succ room =>
      by_cases last : ranks = []
      · subst last
        have read := strtol_printUnsigned_append rank.toNat endsNumber_nil
        rw [List.append_nil] at read
        simp [loadTerms, joinRanks, read, clampRank]
      · have loaded := ih last (Nat.le_of_succ_le_succ fits)
        have ends : EndsNumber ('_' :: joinRanks ranks) := by
          rw [endsNumber_cons]
          decide
        have read := strtol_printUnsigned_append rank.toNat ends
        rw [joinRanks_cons_of_ne_nil last, loadTerms, read]
        simp [loaded, clampRank]

/-- The loop of `match` compares the chain and the recorded terms. -/
theorem matchTerms_iff {node terms : List UInt64} : matchTerms node terms = true ↔ node = terms := by
  induction node generalizing terms with
  | nil => cases terms <;> simp [matchTerms]
  | cons rank parent ih =>
    cases terms with
    | nil => simp [matchTerms]
    | cons term terms => by_cases same : rank = term <;> simp [matchTerms, same, ih]

/-- An entry matches its own type and pedigree, and for a steal its own victim. -/
theorem match_iff {entry : ReplayEntry} {type : PedType} {node : List UInt64} {victim : Int32} :
    entry.match type node victim = true ↔
      type = entry.m_type ∧ node = entry.m_reverse_pedigree
        ∧ (type = .steal → victim = entry.m_value.toInt32) := by
  unfold ReplayEntry.match
  split
  · simp_all
  · split
    · simp_all
    · rw [matchTerms_iff]
      simp_all

/-- The ranks the log holds for a pedigree, the leaf first: a rank of zero stands for the null pointer. -/
def recordedRanks (node : List UInt64) : List UInt64 := if node = [] then [0] else node

/-- The log never holds an empty pedigree. -/
theorem recordedRanks_ne_nil (node : List UInt64) : recordedRanks node ≠ [] := by
  unfold recordedRanks
  split <;> simp_all

/-- The bytes of the array the record needs. -/
def pedigreeBytes (node : List UInt64) : Nat :=
  (node.map fun rank => Nat.log 10 rank.toNat + 2).sum

/-- The array holds the joined ranks, root first. -/
theorem pedigreeField_text (node : List UInt64) :
    (pedigreeField node).text = joinRanks (recordedRanks node).reverse := by
  by_cases null : node = []
  · subst null
    rfl
  · simp only [pedigreeField, if_neg null, recordedRanks, walkPedigreeNodes_eq null]
    rfl

/-- The bytes that are written are those the record needs. -/
theorem pedigreeField_written (node : List UInt64) :
    (pedigreeField node).written = pedigreeBytes (recordedRanks node) := by
  by_cases null : node = []
  · subst null
    decide
  · have length := length_joinRanks (show node.reverse ≠ [] by simpa using null)
    have reversed : (node.reverse.map fun rank => Nat.log 10 rank.toNat + 2).sum = pedigreeBytes node := by
      rw [List.map_reverse, List.sum_reverse, pedigreeBytes]
    simp only [pedigreeField, if_neg null, recordedRanks, walkPedigreeNodes_eq null]
    simp only [List.length_nil, Nat.zero_add, Nat.zero_max, length, reversed]

/-- Nothing in the joined ranks ends a word. -/
theorem isSpace_of_mem_joinRanks {ranks : List UInt64} {c : Char} (mem : c ∈ joinRanks ranks) :
    isSpace c = false := by
  induction ranks with
  | nil => simp [joinRanks] at mem
  | cons rank ranks ih =>
    have digit : c ∈ printUnsigned rank.toNat → isSpace c = false :=
      fun printed => isSpace_of_isDigit (isDigit_of_mem_printUnsigned printed)
    by_cases last : ranks = []
    · subst last
      exact digit mem
    · rw [joinRanks_cons_of_ne_nil last, List.mem_append, List.mem_cons] at mem
      rcases mem with printed | rfl | rest
      · exact digit printed
      · decide
      · exact ih rest

/-- At least one character stands for a rank. -/
theorem joinRanks_ne_nil {ranks : List UInt64} (more : ranks ≠ []) : joinRanks ranks ≠ [] := by
  intro empty
  have length := length_joinRanks more
  cases ranks with
  | nil => exact more rfl
  | cons rank ranks =>
    simp only [empty, List.length_nil, List.map_cons, List.sum_cons] at length
    omega

/-- A word that fits its array is read whole. -/
theorem scanStringInto_append {size : Nat} {word rest : List Char} (nonempty : word ≠ [])
    (solid : ∀ c ∈ word, isSpace c = false) (ends : EndsWord rest) (fits : word.length < size) :
    scanStringInto size (word ++ rest) = some (word, rest) := by
  simp [scanStringInto, scanString_append nonempty solid ends, fits]

/-- The white space that ended the field before a word is skipped. -/
theorem scanStringInto_skipSpace_cons {size : Nat} {c : Char} {text : List Char}
    (space : isSpace c = true) :
    scanStringInto size (skipSpace (c :: text)) = scanStringInto size text := by
  rw [scanStringInto, scanStringInto, scanString_skipSpace, scanString_cons space]

/-- A line is read back into the fields it was written from when its pedigree fits the array. -/
theorem scanRecord_writeToReplayLog {type : List Char} {node : List UInt64} {i1 i2 : Int32}
    (named : type ≠ []) (solid : ∀ c ∈ type, isSpace c = false) (short : type.length < pedTypeSize)
    (fits : pedigreeBytes (recordedRanks node) ≤ pedigreeBuffSize) :
    scanRecord (writeToReplayLog type node i1 i2)
      = some ({ ped_type := type, ped_str := (pedigreeField node).text, i1 := i1, i2 := i2 }, []) := by
  have blank : isSpace ' ' = true := by decide
  have ranks : (recordedRanks node).reverse ≠ [] := by simpa using recordedRanks_ne_nil node
  have length : ((pedigreeField node).text).length < pedigreeBuffSize := by
    have bytes := length_joinRanks ranks
    rw [List.map_reverse, List.sum_reverse] at bytes
    rw [pedigreeField_text]
    unfold pedigreeBytes at fits
    omega
  have blankEnds : ∀ text, EndsWord (' ' :: text) := fun text => endsWord_cons.mpr blank
  have blankEndsNumber : ∀ text, EndsNumber (' ' :: text) := fun text => by simp
  have typeRead := fun text => scanStringInto_append named solid (blankEnds text) short
  have present : (pedigreeField node).text ≠ [] := by
    rw [pedigreeField_text]
    exact joinRanks_ne_nil ranks
  have pedigreeSolid : ∀ c ∈ (pedigreeField node).text, isSpace c = false := by
    rw [pedigreeField_text]
    exact fun c mem => isSpace_of_mem_joinRanks mem
  have pedigreeRead := fun text => scanStringInto_append present pedigreeSolid (blankEnds text) length
  have firstRead := fun text => scanInt_printInt_append i1.toInt (blankEndsNumber text)
  have newlineEnds : EndsNumber ['\n'] := by simp
  have secondRead := scanInt_printInt_append i2.toInt newlineEnds
  have newline : skipSpace ['\n'] = [] := by decide
  simp only [scanRecord, writeToReplayLog, typeRead, Option.bind_eq_bind, Option.bind_some,
    scanStringInto_skipSpace_cons blank, pedigreeRead, scanInt_skipSpace, scanInt_cons blank, firstRead,
    secondRead, newline, Int32.ofInt_toInt]

/-- The value an entry of a record holds. -/
def ReplayRecord.value : ReplayRecord → Int16
  | .steal victim => victim.toInt16
  | .sync => -1
  | .orphaned => -1

/-- The entry that is loaded from a record whose pedigree fits the array. -/
theorem loadRecord_write {previous : ReplayEntry} {record : ReplayRecord} {node : List UInt64}
    (fits : pedigreeBytes (recordedRanks node) ≤ pedigreeBuffSize) :
    loadRecord previous (record.write node)
      = some ({ m_reverse_pedigree := (recordedRanks node).map clampRank, m_type := record.type,
                m_value := record.value }, []) := by
  have ranks : (recordedRanks node).reverse ≠ [] := by simpa using recordedRanks_ne_nil node
  have room : (recordedRanks node).reverse.length ≤ pedigreeBuffSize / 2 := by
    have two : ∀ l : List UInt64, 2 * l.length ≤ pedigreeBytes l := by
      intro l
      induction l with
      | nil => exact Nat.le_refl 0
      | cons rank l ih =>
        simp only [pedigreeBytes, List.map_cons, List.sum_cons, List.length_cons] at ih ⊢
        omega
    have short := two (recordedRanks node)
    rw [List.length_reverse]
    omega
  have terms := loadTerms_joinRanks ranks room
  rw [← pedigreeField_text, List.map_reverse] at terms
  cases record with
  | steal victim =>
    have scanned : scanRecord (writeToReplayLog pedTypeStrSteal node victim) = _ :=
      scanRecord_writeToReplayLog (by decide) (by simp [pedTypeStrSteal, isSpace]) (by decide) fits
    simp [loadRecord, ReplayRecord.write, scanned, ReplayEntry.load, terms, ReplayRecord.type,
      ReplayRecord.value]
  | sync =>
    have scanned : scanRecord (writeToReplayLog pedTypeStrSync node) = _ :=
      scanRecord_writeToReplayLog (by decide) (by simp [pedTypeStrSync, isSpace]) (by decide) fits
    have other : pedTypeStrSync ≠ pedTypeStrSteal := by decide
    simp [loadRecord, ReplayRecord.write, scanned, ReplayEntry.load, terms, ReplayRecord.type,
      ReplayRecord.value, other]
  | orphaned =>
    have scanned : scanRecord (writeToReplayLog pedTypeStrOrphaned node) = _ :=
      scanRecord_writeToReplayLog (by decide) (by simp [pedTypeStrOrphaned, isSpace]) (by decide) fits
    have other : pedTypeStrOrphaned ≠ pedTypeStrSteal ∧ pedTypeStrOrphaned ≠ pedTypeStrSync := by decide
    simp [loadRecord, ReplayRecord.write, scanned, ReplayEntry.load, terms, ReplayRecord.type,
      ReplayRecord.value, other]

/-- A record is written inside the array, and the entry that is loaded from its line matches the pedigree
that was recorded, and for a steal the victim, and nothing else. -/
structure ReplayRoundTrip (record : ReplayRecord) (node : List UInt64) : Prop where
  within_array : (pedigreeField node).written ≤ pedigreeBuffSize
  matches_only : ∀ previous, ∃ entry, loadRecord previous (record.write node) = some (entry, []) ∧
    ∀ type node' victim, entry.match type node' victim = true ↔
      type = record.type ∧ node' = node ∧ ∀ recorded, record = .steal recorded → victim = recorded

/-- The victim of a steal is the one the loaded entry asks for exactly when it is an `int16_t`. -/
theorem matches_recorded_victim_iff {record : ReplayRecord} :
    (∀ victim : Int32, (record.type = .steal → victim = record.value.toInt32) ↔
        ∀ recorded, record = .steal recorded → victim = recorded) ↔
      ∀ victim, record = .steal victim → -2 ^ 15 ≤ victim.toInt ∧ victim.toInt < 2 ^ 15 := by
  cases record with
  | steal recorded =>
    simp only [ReplayRecord.type, ReplayRecord.value, true_imp_iff, ReplayRecord.steal.injEq, forall_eq',
      ← eq_toInt32_toInt16_iff]
    constructor
    · intro same
      exact (same recorded).mpr rfl
    · intro same victim
      rw [← same]
  | sync => simp [ReplayRecord.type]
  | orphaned => simp [ReplayRecord.type]

/-- The ranks that are loaded are those of the pedigree exactly when it is not null and none exceeds
`LONG_MAX`. -/
theorem map_clampRank_eq_iff {node : List UInt64} :
    (recordedRanks node).map clampRank = node ↔ node ≠ [] ∧ ∀ rank ∈ node, rank.toNat < 2 ^ 63 := by
  by_cases null : node = []
  · simp [null, recordedRanks]
  · simp only [recordedRanks, ne_eq, null, if_false, not_false_eq_true, true_and]
    constructor
    · intro same rank mem
      have each := List.map_eq_map_iff.mp (same.trans (List.map_id node).symm)
      exact clampRank_eq_iff.mp (each rank mem)
    · intro small
      have each := List.map_congr_left fun rank mem => clampRank_eq_iff.mpr (small rank mem)
      simpa using each

/-- The bytes that a pedigree of equal ranks needs. -/
theorem pedigreeBytes_replicate (depth : Nat) (rank : UInt64) :
    pedigreeBytes (List.replicate depth rank) = depth * (Nat.log 10 rank.toNat + 2) := by
  rw [pedigreeBytes, List.map_replicate, List.sum_replicate_nat]

end CilkL
