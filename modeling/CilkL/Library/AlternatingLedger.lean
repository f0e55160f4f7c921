/-
Module: CilkL.Library.AlternatingLedger
Layer: Library
Purpose: Ledgers in a commutative group on which credits and debits take turns, the credit first, with
  adjustments anywhere between them. A credit that follows a debit completes a cycle, whose change is the
  credit less the debit. The balance telescopes: it is the first credit, the changes of the completed cycles
  and the adjustments, less the debit that no credit has followed yet.
Imports: Mathlib.Algebra.BigOperators.Group.List.Basic, Mathlib.Tactic.Abel
Trusted boundary: none
Main exports: Posting, Turn, Alternates, balance, changes, adjustments, firstCredit, balance_of_credited,
  balance_of_no_credit
Open obligations: none
-/
import Mathlib.Algebra.BigOperators.Group.List.Basic
import Mathlib.Tactic.Abel

namespace CilkL

/-- One line of a ledger. -/
inductive Posting (G : Type*) where
  | credit (amount : G)
  | debit (amount : G)
  | adjustment (amount : G)
deriving DecidableEq, Repr

/-- What the next posting is that is no adjustment. -/
inductive Turn where
  | credit
  | debit
deriving DecidableEq, Repr

section Postings

variable {G : Type*}

/-- Credits and debits take turns. -/
def Alternates : Turn → List (Posting G) → Prop
  | _, [] => True
  | .credit, .credit _ :: rest => Alternates .debit rest
  | .debit, .debit _ :: rest => Alternates .credit rest
  | turn, .adjustment _ :: rest => Alternates turn rest
  | .credit, .debit _ :: _ => False
  | .debit, .credit _ :: _ => False

/-- Whether a ledger alternates can be read off it. -/
instance Alternates.decidable : (turn : Turn) → (postings : List (Posting G)) → Decidable (Alternates turn postings)
  | _, [] => isTrue trivial
  | .credit, .credit _ :: rest => Alternates.decidable .debit rest
  | .debit, .debit _ :: rest => Alternates.decidable .credit rest
  | .credit, .adjustment _ :: rest => Alternates.decidable .credit rest
  | .debit, .adjustment _ :: rest => Alternates.decidable .debit rest
  | .credit, .debit _ :: _ => isFalse not_false
  | .debit, .credit _ :: _ => isFalse not_false

/-- The amount of the first credit. -/
def firstCredit : List (Posting G) → Option G
  | [] => none
  | .credit amount :: _ => some amount
  | _ :: rest => firstCredit rest

/-- The amounts of the adjustments. -/
def adjustments : List (Posting G) → List G
  | [] => []
  | .adjustment amount :: rest => amount :: adjustments rest
  | _ :: rest => adjustments rest

/-- The debit that no credit has followed, when `taken` is that debit at the start. -/
def openDebit : Option G → List (Posting G) → Option G
  | taken, [] => taken
  | _, .credit _ :: rest => openDebit none rest
  | _, .debit amount :: rest => openDebit (some amount) rest
  | taken, .adjustment _ :: rest => openDebit taken rest

/-- The turn after a credit, or after a debit that is open. -/
def turnAfter : Option G → Turn
  | none => .debit
  | some _ => .credit

variable {turn : Turn} {earlier later : List (Posting G)}

/-- A ledger that alternates does so from its start up to any line. -/
theorem Alternates.of_append (alternates : Alternates turn (earlier ++ later)) : Alternates turn earlier := by
  induction earlier generalizing turn with
  | nil => trivial
  | cons posting rest ih =>
      cases turn <;> cases posting <;> first | exact ih alternates | exact alternates

/-- Behind a debit it is the credit's turn. -/
theorem Alternates.after_debit {amount : G} (alternates : Alternates turn (earlier ++ .debit amount :: later)) :
    Alternates .credit later := by
  induction earlier generalizing turn with
  | nil =>
      cases turn with
      | credit => exact alternates.elim
      | debit => exact alternates
  | cons posting rest ih =>
      cases turn <;> cases posting <;> first | exact ih alternates | exact alternates.elim

/-- A credit leaves no debit open. -/
theorem openDebit_append_credit (taken : Option G) (earlier : List (Posting G)) (amount : G) :
    openDebit taken (earlier ++ [.credit amount]) = none := by
  induction earlier generalizing taken with
  | nil => rfl
  | cons posting rest ih => cases posting <;> exact ih _

/-- A ledger with a credit in it has a first one. -/
theorem firstCredit_append_credit (earlier : List (Posting G)) (amount : G) :
    ∃ first, firstCredit (earlier ++ [.credit amount]) = some first := by
  induction earlier with
  | nil => exact ⟨amount, rfl⟩
  | cons posting rest ih =>
      cases posting with
      | credit first => exact ⟨first, rfl⟩
      | debit _ => exact ih
      | adjustment _ => exact ih

/-- What follows does not change which credit is the first. -/
theorem firstCredit_append {first : G} (isFirst : firstCredit earlier = some first) :
    firstCredit (earlier ++ later) = some first := by
  induction earlier with
  | nil => simp [firstCredit] at isFirst
  | cons posting rest ih =>
      cases posting with
      | credit _ => exact isFirst
      | debit _ => exact ih isFirst
      | adjustment _ => exact ih isFirst

end Postings

variable {G : Type*} [AddCommGroup G]

/-- What a posting adds to the balance. -/
def Posting.value : Posting G → G
  | .credit amount => amount
  | .debit amount => -amount
  | .adjustment amount => amount

/-- The balance of a ledger that starts at nothing. -/
def balance (postings : List (Posting G)) : G :=
  (postings.map Posting.value).sum

/-- The changes of the completed cycles, when `taken` is the debit that is open at the start. -/
def changes : Option G → List (Posting G) → List G
  | _, [] => []
  | none, .credit _ :: rest => changes none rest
  | some taken, .credit amount :: rest => (amount - taken) :: changes none rest
  | _, .debit amount :: rest => changes (some amount) rest
  | taken, .adjustment _ :: rest => changes taken rest

/-- Two cycles, with an adjustment in the first. -/
example : changes none [.credit (10 : ℤ), .debit 4, .adjustment 2, .credit 7, .debit 1, .credit 9] = [3, 8] := by
  decide

@[simp] theorem balance_nil : balance ([] : List (Posting G)) = 0 := rfl

@[simp] theorem balance_cons (posting : Posting G) (rest : List (Posting G)) :
    balance (posting :: rest) = posting.value + balance rest :=
  List.sum_cons

/-- The balance of two ledgers, one behind the other. -/
theorem balance_append (earlier later : List (Posting G)) :
    balance (earlier ++ later) = balance earlier + balance later := by
  simp only [balance, List.map_append, List.sum_append]

/-- Before the first credit there are adjustments only. -/
theorem balance_of_no_credit (postings : List (Posting G)) (alternates : Alternates .credit postings)
    (noCredit : firstCredit postings = none) : balance postings = (adjustments postings).sum := by
  induction postings with
  | nil => rfl
  | cons posting rest ih =>
      cases posting with
      | credit _ => simp [firstCredit] at noCredit
      | debit _ => exact alternates.elim
      | adjustment amount =>
          rw [balance_cons, ih alternates noCredit, adjustments, List.sum_cons, Posting.value]

/-- The balance telescopes behind the first credit. -/
theorem balance_of_turnAfter (taken : Option G) (postings : List (Posting G))
    (alternates : Alternates (turnAfter taken) postings) :
    balance postings + (openDebit taken postings).getD 0 =
      taken.getD 0 + (changes taken postings).sum + (adjustments postings).sum := by
  induction postings generalizing taken with
  | nil => simp [openDebit, changes, adjustments]
  | cons posting rest ih =>
      cases posting with
      | credit amount =>
          -- the credit closes the debit that is open, for there is one when it is the credit's turn
          cases taken with
          | none => exact alternates.elim
          | some debit =>
              have tail := ih none alternates
              simp only [balance_cons, Posting.value, openDebit, changes, adjustments, List.sum_cons,
                Option.getD_some, Option.getD_none, zero_add, add_assoc] at tail ⊢
              rw [tail]
              abel
      | debit amount =>
          cases taken with
          | some debit => exact alternates.elim
          | none =>
              have tail := ih (some amount) alternates
              simp only [balance_cons, Posting.value, openDebit, changes, adjustments,
                Option.getD_some, Option.getD_none, zero_add, add_assoc] at tail ⊢
              rw [tail]
              abel
      | adjustment amount =>
          have tail := ih taken (by cases taken <;> exact alternates)
          simp only [balance_cons, Posting.value, openDebit, adjustments, List.sum_cons, add_assoc] at tail ⊢
          rw [tail]
          cases taken <;> simp only [changes] <;> abel

/-- The balance telescopes: the first credit, the changes of the completed cycles and the adjustments, less the
debit that is open. -/
theorem balance_of_firstCredit {first : G} (postings : List (Posting G))
    (alternates : Alternates .credit postings) (isFirst : firstCredit postings = some first) :
    balance postings + (openDebit none postings).getD 0 =
      first + (changes none postings).sum + (adjustments postings).sum := by
  induction postings with
  | nil => simp [firstCredit] at isFirst
  | cons posting rest ih =>
      cases posting with
      | credit amount =>
          obtain rfl : amount = first := Option.some.inj isFirst
          have tail := balance_of_turnAfter none rest alternates
          simp only [balance_cons, Posting.value, openDebit, changes, adjustments, Option.getD_none, zero_add,
            add_assoc] at tail ⊢
          rw [tail]
      | debit amount => exact alternates.elim
      | adjustment amount =>
          have tail := ih alternates isFirst
          simp only [balance_cons, Posting.value, openDebit, changes, adjustments, List.sum_cons, add_assoc]
            at tail ⊢
          rw [tail]
          abel

/-- The balance right after a credit. -/
theorem balance_of_credited (earlier : List (Posting G)) (amount : G)
    (alternates : Alternates .credit (earlier ++ [.credit amount])) :
    ∃ first, firstCredit (earlier ++ [.credit amount]) = some first ∧
      balance (earlier ++ [.credit amount]) =
        first + (changes none (earlier ++ [.credit amount])).sum +
          (adjustments (earlier ++ [.credit amount])).sum := by
  obtain ⟨first, isFirst⟩ := firstCredit_append_credit earlier amount
  have total := balance_of_firstCredit _ alternates isFirst
  rw [openDebit_append_credit, Option.getD_none, add_zero] at total
  exact ⟨first, isFirst, total⟩

end CilkL
