/-
Module: CilkL.Library.Tiling
Layer: Library
Purpose: Lists of half-open intervals that follow each other without a gap or an overlap. A divide and
  conquer recursion over a range hands out such a list, left half first, so the rule that joins two
  tilings is the step of every proof about it.
Imports: Mathlib
Trusted boundary: none
Main exports: Tiles, Tiles.append, Tiles.covers, Tiles.ordered
Open obligations: none
-/
import Mathlib

namespace CilkL

variable {α : Type*}

/-- The intervals lead from `lo` to `hi`: each begins where the one before it ends, and none is empty. -/
def Tiles [Preorder α] : α → List (α × α) → α → Prop
  | lo, [], hi => lo = hi
  | lo, piece :: rest, hi => piece.1 = lo ∧ lo < piece.2 ∧ Tiles piece.2 rest hi

/-- One interval tiles itself. -/
theorem Tiles.single [Preorder α] {lo hi : α} (nonempty : lo < hi) : Tiles lo [(lo, hi)] hi :=
  ⟨rfl, nonempty, rfl⟩

/-- Two tilings that meet make one. -/
theorem Tiles.append [Preorder α] {lo mid hi : α} {left right : List (α × α)}
    (tilesLeft : Tiles lo left mid) (tilesRight : Tiles mid right hi) : Tiles lo (left ++ right) hi := by
  induction left generalizing lo with
  | nil =>
    cases tilesLeft
    exact tilesRight
  | cons piece rest ih =>
    rcases tilesLeft with ⟨begins, nonempty, tilesRest⟩
    exact ⟨begins, nonempty, ih tilesRest⟩

/-- A tiling never leads backwards. -/
theorem Tiles.le [Preorder α] {lo hi : α} {pieces : List (α × α)} (tiles : Tiles lo pieces hi) :
    lo ≤ hi := by
  induction pieces generalizing lo with
  | nil => exact le_of_eq tiles
  | cons piece rest ih => exact le_trans (le_of_lt tiles.2.1) (ih tiles.2.2)

/-- The pieces lie inside the range and none is empty. -/
theorem Tiles.inside [Preorder α] {lo hi : α} {pieces : List (α × α)} (tiles : Tiles lo pieces hi) :
    ∀ piece ∈ pieces, lo ≤ piece.1 ∧ piece.1 < piece.2 ∧ piece.2 ≤ hi := by
  induction pieces generalizing lo with
  | nil => simp
  | cons piece rest ih =>
    rcases tiles with ⟨begins, nonempty, tilesRest⟩
    intro other isOther
    rcases List.mem_cons.mp isOther with first | later
    · subst first
      exact ⟨le_of_eq begins.symm, begins ▸ nonempty, tilesRest.le⟩
    · rcases ih tilesRest other later with ⟨low, proper, high⟩
      exact ⟨le_trans (le_of_lt nonempty) low, proper, high⟩

/-- The union of the pieces is the range. -/
theorem Tiles.covers [LinearOrder α] {lo hi : α} {pieces : List (α × α)} (tiles : Tiles lo pieces hi)
    (i : α) : (∃ piece ∈ pieces, piece.1 ≤ i ∧ i < piece.2) ↔ lo ≤ i ∧ i < hi := by
  constructor
  · rintro ⟨piece, isPiece, above, below⟩
    rcases tiles.inside piece isPiece with ⟨low, -, high⟩
    exact ⟨le_trans low above, lt_of_lt_of_le below high⟩
  · rintro ⟨above, below⟩
    induction pieces generalizing lo with
    | nil =>
      cases tiles
      exact absurd above (not_le_of_gt below)
    | cons piece rest ih =>
      rcases tiles with ⟨begins, -, tilesRest⟩
      by_cases inFirst : i < piece.2
      · exact ⟨piece, List.mem_cons_self, begins ▸ above, inFirst⟩
      · rcases ih tilesRest (le_of_not_gt inFirst) with ⟨other, isOther, within⟩
        exact ⟨other, List.mem_cons_of_mem _ isOther, within⟩

/-- The pieces come in order: each ends before every later one begins. -/
theorem Tiles.ordered [Preorder α] {lo hi : α} {pieces : List (α × α)} (tiles : Tiles lo pieces hi) :
    pieces.Pairwise fun earlier later => earlier.2 ≤ later.1 := by
  induction pieces generalizing lo with
  | nil => exact List.Pairwise.nil
  | cons piece rest ih =>
    rcases tiles with ⟨-, -, tilesRest⟩
    exact List.Pairwise.cons (fun later isLater => (tilesRest.inside later isLater).1) (ih tilesRest)

end CilkL
