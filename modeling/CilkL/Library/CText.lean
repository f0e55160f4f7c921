/-
Module: CilkL.Library.CText
Layer: Library
Purpose: The conversions between numbers and text of the C library, on lists of characters. Printing is
  `%d` and `%lu`; reading is `strtol` in base 10 and the `%s`, `%d` and white-space directives of
  `fscanf`, each returning the text it leaves. What one prints the other reads back, as long as the text
  that follows cannot be taken for more of the number and the number is in the range of the reader.
Imports: Mathlib
Trusted boundary: none
Main exports: printUnsigned, printInt, strtol, scanString, scanInt, length_printUnsigned,
  strtol_printUnsigned_append, scanString_append, scanInt_printInt_append
Open obligations: none
-/
import Mathlib

namespace CilkL

/-- `isspace` in the C locale. -/
def isSpace (c : Char) : Bool :=
  c == ' ' || c == '\t' || c == '\n' || c == '\x0b' || c == '\x0c' || c == '\r'

/-- The white space at the front of the text is skipped. -/
def skipSpace (text : List Char) : List Char := text.dropWhile isSpace

/-- `%lu`: the decimal digits, most significant first. -/
def printUnsigned (n : Nat) : List Char := Nat.toDigits 10 n

/-- `%d`: a minus sign before the digits of a negative number. -/
def printInt (value : Int) : List Char :=
  if value < 0 then '-' :: printUnsigned value.natAbs else printUnsigned value.natAbs

/-- An optional sign, whether it is a minus, and the text after it. -/
def scanSign : List Char → Bool × List Char
  | '-' :: rest => (true, rest)
  | '+' :: rest => (false, rest)
  | text => (false, text)

/-- A decimal number with an optional sign, and the text after its last digit. -/
def scanDecimal (text : List Char) : Option (Int × List Char) :=
  let (negative, body) := scanSign text
  let digits := body.takeWhile Char.isDigit
  if digits = [] then none
  else
    let magnitude : Int := Nat.ofDigitChars 10 digits 0
    some (if negative then -magnitude else magnitude, body.dropWhile Char.isDigit)

/-- `LONG_MAX`. -/
def longMax : Int := 2 ^ 63 - 1

/-- `LONG_MIN`. -/
def longMin : Int := -2 ^ 63

/-- `strtol(text, &end, 10)`: the value, `LONG_MAX` or `LONG_MIN` when the number is out of range, and the
text from `end` on, which is the whole text when there is no number. -/
def strtol (text : List Char) : Int × List Char :=
  match scanDecimal (skipSpace text) with
  | none => (0, text)
  | some (value, rest) => (max longMin (min value longMax), rest)

/-- `%s`: a word up to the next white space. There is none when the text is exhausted. -/
def scanString (text : List Char) : Option (List Char × List Char) :=
  let body := skipSpace text
  if body = [] then none
  else some (body.takeWhile (!isSpace ·), body.dropWhile (!isSpace ·))

/-- `%d`. -/
def scanInt (text : List Char) : Option (Int × List Char) := scanDecimal (skipSpace text)

/-- A text whose first character is not a digit, so that it ends the number before it. -/
def EndsNumber (text : List Char) : Prop := ∀ c ∈ text.head?, c.isDigit = false

/-- The empty text ends a number. -/
@[simp] theorem endsNumber_nil : EndsNumber [] := by
  simp [EndsNumber]

/-- A text ends a number when its first character is no digit. -/
@[simp] theorem endsNumber_cons {c : Char} {text : List Char} :
    EndsNumber (c :: text) ↔ c.isDigit = false := by
  simp [EndsNumber]

/-- A text whose first character is white space, or the empty text. -/
def EndsWord (text : List Char) : Prop := ∀ c ∈ text.head?, isSpace c = true

/-- The empty text ends a word. -/
@[simp] theorem endsWord_nil : EndsWord [] := by
  simp [EndsWord]

/-- A text ends a word when its first character is white space. -/
@[simp] theorem endsWord_cons {c : Char} {text : List Char} :
    EndsWord (c :: text) ↔ isSpace c = true := by
  simp [EndsWord]

/-- A digit is not white space. -/
theorem isSpace_of_isDigit {c : Char} (digit : c.isDigit = true) : isSpace c = false := by
  by_contra space
  simp only [isSpace, Bool.not_eq_false, Bool.or_eq_true, beq_iff_eq] at space
  rcases space with ((((rfl | rfl) | rfl) | rfl) | rfl) | rfl <;> exact absurd digit (by decide)

/-- A prefix that satisfies the test is taken whole when the text after it fails it at once. -/
theorem takeWhile_append_of_head {α : Type*} {p : α → Bool} {front rest : List α}
    (all : ∀ c ∈ front, p c = true) (stops : ∀ c ∈ rest.head?, p c = false) : (front ++ rest).takeWhile p = front := by
  rw [List.takeWhile_append_of_pos all]
  cases rest with
  | nil => simp
  | cons c rest => simp [stops c (by simp)]

/-- A prefix that satisfies the test is dropped whole when the text after it fails it at once. -/
theorem dropWhile_append_of_head {α : Type*} {p : α → Bool} {front rest : List α}
    (all : ∀ c ∈ front, p c = true) (stops : ∀ c ∈ rest.head?, p c = false) : (front ++ rest).dropWhile p = rest := by
  rw [List.dropWhile_append_of_pos all]
  cases rest with
  | nil => simp
  | cons c rest => simp [stops c (by simp)]

/-- Every character printed is a digit. -/
theorem isDigit_of_mem_printUnsigned {n : Nat} {c : Char} (mem : c ∈ printUnsigned n) :
    c.isDigit = true :=
  Nat.isDigit_of_mem_toDigits (by decide) (by decide) mem

/-- At least one digit is printed. -/
theorem printUnsigned_ne_nil (n : Nat) : printUnsigned n ≠ [] := Nat.toDigits_ne_nil

/-- A printed number starts with a digit. -/
theorem printUnsigned_eq_cons (n : Nat) : ∃ c digits, printUnsigned n = c :: digits ∧ c.isDigit = true := by
  cases printed : printUnsigned n with
  | nil => exact absurd printed (printUnsigned_ne_nil n)
  | cons c digits => exact ⟨c, digits, rfl, isDigit_of_mem_printUnsigned (n := n) (by simp [printed])⟩

/-- The number of digits printed. -/
theorem length_printUnsigned (n : Nat) : (printUnsigned n).length = Nat.log 10 n + 1 := by
  have bound : ∀ k, (printUnsigned n).length ≤ k + 1 ↔ Nat.log 10 n ≤ k := by
    intro k
    rw [printUnsigned, Nat.length_toDigits_le_iff (by decide) (Nat.succ_pos k)]
    constructor
    · intro small
      exact Nat.lt_succ_iff.mp (Nat.log_lt_of_lt_pow' (Nat.succ_ne_zero k) small)
    · intro small
      exact Nat.lt_pow_of_log_lt (by decide) (Nat.lt_succ_of_le small)
  have upper := (bound (Nat.log 10 n)).mpr le_rfl
  have positive : 0 < (printUnsigned n).length := List.length_pos_iff.mpr (printUnsigned_ne_nil n)
  have lower := (bound ((printUnsigned n).length - 1)).mp (by omega)
  omega

/-- There is no white space at the front of a printed number. -/
theorem skipSpace_printUnsigned_append (n : Nat) (rest : List Char) :
    skipSpace (printUnsigned n ++ rest) = printUnsigned n ++ rest := by
  obtain ⟨c, digits, printed, digit⟩ := printUnsigned_eq_cons n
  simp [skipSpace, printed, isSpace_of_isDigit digit]

/-- A text that starts with a digit has no sign. -/
theorem scanSign_of_isDigit {c : Char} {text : List Char} (digit : c.isDigit = true) :
    scanSign (c :: text) = (false, c :: text) := by
  have minus : c ≠ '-' := fun is_minus => absurd (is_minus ▸ digit) (by decide)
  have plus : c ≠ '+' := fun is_plus => absurd (is_plus ▸ digit) (by decide)
  unfold scanSign
  split <;> simp_all

/-- The digits of a number are read back up to the text that ends it. -/
theorem scanDecimal_of_scanSign {text rest : List Char} {negative : Bool} {n : Nat} (ends : EndsNumber rest)
    (sign : scanSign text = (negative, printUnsigned n ++ rest)) :
    scanDecimal text = some (if negative then -(n : Int) else n, rest) := by
  have all : ∀ c ∈ printUnsigned n, c.isDigit = true := fun c mem => isDigit_of_mem_printUnsigned mem
  simp only [scanDecimal, sign, takeWhile_append_of_head all ends, dropWhile_append_of_head all ends,
    if_neg (printUnsigned_ne_nil n)]
  rw [printUnsigned, Nat.ofDigitChars_ten_toDigits]

/-- Reading a printed natural number. -/
theorem scanDecimal_printUnsigned_append (n : Nat) {rest : List Char} (ends : EndsNumber rest) :
    scanDecimal (printUnsigned n ++ rest) = some ((n : Int), rest) := by
  have sign : scanSign (printUnsigned n ++ rest) = (false, printUnsigned n ++ rest) := by
    obtain ⟨c, digits, printed, digit⟩ := printUnsigned_eq_cons n
    rw [printed]
    exact scanSign_of_isDigit digit
  simpa using scanDecimal_of_scanSign ends sign

/-- `strtol` reads a printed natural number back, up to `LONG_MAX`. -/
theorem strtol_printUnsigned_append (n : Nat) {rest : List Char} (ends : EndsNumber rest) :
    strtol (printUnsigned n ++ rest) = (min (n : Int) longMax, rest) := by
  have low : longMin ≤ min (n : Int) longMax := by
    simp only [longMin, longMax]
    omega
  simp only [strtol, skipSpace_printUnsigned_append, scanDecimal_printUnsigned_append n ends,
    max_eq_right low]

/-- `%d` reads back what `%d` printed. -/
theorem scanInt_printInt_append (value : Int) {rest : List Char} (ends : EndsNumber rest) :
    scanInt (printInt value ++ rest) = some (value, rest) := by
  by_cases negative : value < 0
  · have sign : scanSign ('-' :: (printUnsigned value.natAbs ++ rest))
        = (true, printUnsigned value.natAbs ++ rest) := rfl
    have skipped : skipSpace ('-' :: (printUnsigned value.natAbs ++ rest))
        = '-' :: (printUnsigned value.natAbs ++ rest) := by
      simp [skipSpace, isSpace]
    rw [scanInt, printInt, if_pos negative, List.cons_append, skipped, scanDecimal_of_scanSign ends sign]
    simp only [if_true, Option.some.injEq, Prod.mk.injEq, and_true]
    omega
  · rw [scanInt, printInt, if_neg negative, skipSpace_printUnsigned_append,
      scanDecimal_printUnsigned_append _ ends]
    simp only [Option.some.injEq, Prod.mk.injEq, and_true]
    omega

/-- `%s` reads back a word without white space. -/
theorem scanString_append {word rest : List Char} (nonempty : word ≠ [])
    (solid : ∀ c ∈ word, isSpace c = false) (ends : EndsWord rest) :
    scanString (word ++ rest) = some (word, rest) := by
  have skipped : skipSpace (word ++ rest) = word ++ rest := by
    cases word with
    | nil => exact absurd rfl nonempty
    | cons c word => simp [skipSpace, solid c (by simp)]
  have all : ∀ c ∈ word, (!isSpace c) = true := fun c mem => by simp [solid c mem]
  have stops : ∀ c ∈ rest.head?, (!isSpace c) = false := fun c mem => by simp [ends c mem]
  rw [scanString, skipped, takeWhile_append_of_head all stops, dropWhile_append_of_head all stops,
    if_neg (by simp [nonempty])]

/-- Skipping white space twice is skipping it once. -/
@[simp] theorem skipSpace_skipSpace (text : List Char) : skipSpace (skipSpace text) = skipSpace text :=
  List.dropWhile_idempotent _ _

/-- `%d` skips white space by itself. -/
@[simp] theorem scanInt_skipSpace (text : List Char) : scanInt (skipSpace text) = scanInt text := by
  rw [scanInt, scanInt, skipSpace_skipSpace]

/-- `%s` skips white space by itself. -/
@[simp] theorem scanString_skipSpace (text : List Char) :
    scanString (skipSpace text) = scanString text := by
  rw [scanString, scanString, skipSpace_skipSpace]

/-- White space before a directive that skips it does not matter. -/
theorem skipSpace_cons {c : Char} {text : List Char} (space : isSpace c = true) :
    skipSpace (c :: text) = skipSpace text := by
  simp [skipSpace, space]

/-- `%d` skips the white space that ended the field before it. -/
theorem scanInt_cons {c : Char} {text : List Char} (space : isSpace c = true) :
    scanInt (c :: text) = scanInt text := by
  rw [scanInt, scanInt, skipSpace_cons space]

/-- `%s` skips the white space that ended the field before it. -/
theorem scanString_cons {c : Char} {text : List Char} (space : isSpace c = true) :
    scanString (c :: text) = scanString text := by
  rw [scanString, scanString, skipSpace_cons space]

end CilkL
