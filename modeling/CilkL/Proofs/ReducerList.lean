/-
Module: CilkL.Proofs.ReducerList
Layer: Proofs
Purpose: The functions of the list views leave the same elements on both of their paths, those of the operation
  of `std::list` that they stand for, but for `splice_front` of a whole list with an unequal allocator: it
  copies nothing.
Imports: CilkL.Runtime.ReducerList
Trusted boundary: none
Main exports: ListViewOperation.run_equal, ListViewOperation.run_unequal, list_operation_paths_agree
Open obligations: none
-/
import CilkL.Runtime.ReducerList

namespace CilkL

variable {α A : Type} [DecidableEq A]

/-- The elements of two containers. -/
def contents (pair : StdContainer α A × StdContainer α A) : List α × List α := (pair.1.elements, pair.2.elements)

namespace StdContainer

variable {c x : StdContainer α A} {first last i : Nat}

omit [DecidableEq A] in
theorem range_of_valid (valid : first ≤ last ∧ last ≤ x.elements.length) :
    x.range first last = some ((x.elements.take last).drop first) := if_pos valid

omit [DecidableEq A] in
theorem erase_of_valid (valid : first ≤ last ∧ last ≤ x.elements.length) :
    x.erase first last = some { x with elements := x.elements.take first ++ x.elements.drop last } := if_pos valid

/-- A splice of valid iterators. -/
theorem splice_of_valid {position : Nat} (same : c.sameAllocator x)
    (valid : first ≤ last ∧ last ≤ x.elements.length) :
    c.splice position x first last = some (c.insert position ((x.elements.take last).drop first),
      { x with elements := x.elements.take first ++ x.elements.drop last }) := by
  rw [splice, if_pos same, range_of_valid valid, erase_of_valid valid]
  rfl

omit [DecidableEq A] in
theorem insert_front (xs : List α) : (c.insert 0 xs).elements = xs ++ c.elements := by
  simp [insert]

omit [DecidableEq A] in
theorem insert_back (xs : List α) : (c.insert c.elements.length xs).elements = c.elements ++ xs := by
  simp [insert]

end StdContainer

namespace ListViewOperation

variable {view x view' x' : StdContainer α A} {op : ListViewOperation}

/-- The element at an iterator is what is between it and the next one. -/
theorem drop_take_succ {xs : List α} {i : Nat} : (xs.take (i + 1)).drop i = (xs.drop i).take 1 := by
  rw [List.drop_take]
  simp

theorem take_one_drop {xs : List α} {i : Nat} (inside : i < xs.length) :
    (xs.drop i).take 1 = [xs.get ⟨i, inside⟩] := by
  rw [List.drop_eq_getElem_cons inside]
  rfl

theorem eraseIdx_eq_take_drop {xs : List α} {i : Nat} : xs.take i ++ xs.drop (i + 1) = xs.eraseIdx i :=
  (List.eraseIdx_eq_take_drop_succ xs i).symm

/-- On the path for equal allocators each function is the operation it stands for. -/
theorem run_equal (equal : view.allocator = x.allocator) (valid : op.Valid x.elements) :
    (op.run view x).map contents = some (op.stdList view.elements x.elements) := by
  have whole : 0 ≤ x.elements.length ∧ x.elements.length ≤ x.elements.length := ⟨Nat.zero_le _, Nat.le_refl _⟩
  cases op with
  | viewMoveIn =>
    rw [run, listViewMoveIn, if_pos equal, StdContainer.swap, if_pos equal]
    rfl
  | viewMoveOut =>
    rw [run, listViewMoveOut, if_pos equal, StdContainer.swap, if_pos equal]
    rfl
  | spliceBack =>
    rw [run, CilkL.spliceBack, if_pos equal.symm, StdContainer.splice_of_valid equal whole]
    simp [contents, StdContainer.insert_back, stdList]
  | spliceBackAt i =>
    rw [run, CilkL.spliceBackAt, if_pos equal.symm, StdContainer.splice_of_valid equal ⟨Nat.le_succ i, valid⟩]
    simp only [Option.map_some, contents, StdContainer.insert_back, stdList, drop_take_succ, eraseIdx_eq_take_drop]
  | spliceBackRange first last =>
    rw [run, CilkL.spliceBackRange, if_pos equal.symm, StdContainer.splice_of_valid equal valid]
    simp only [Option.map_some, contents, StdContainer.insert_back, stdList]
  | spliceFront =>
    rw [run, CilkL.spliceFront, if_pos equal.symm, StdContainer.splice_of_valid equal whole]
    simp [contents, StdContainer.insert_front, stdList]
  | spliceFrontAt i =>
    rw [run, CilkL.spliceFrontAt, if_pos equal.symm, StdContainer.splice_of_valid equal ⟨Nat.le_succ i, valid⟩]
    simp only [Option.map_some, contents, StdContainer.insert_front, stdList, drop_take_succ, eraseIdx_eq_take_drop]
  | spliceFrontRange first last =>
    rw [run, CilkL.spliceFrontRange, if_pos equal.symm, StdContainer.splice_of_valid equal valid]
    simp only [Option.map_some, contents, StdContainer.insert_front, stdList]

/-- On the path for unequal allocators `splice_front` of a whole list leaves the view as it is; the other
functions are the operations they stand for. -/
theorem run_unequal (unequal : view.allocator ≠ x.allocator) (valid : op.Valid x.elements) :
    (op.run view x).map contents =
      some (if op = .spliceFront then (view.elements, []) else op.stdList view.elements x.elements) := by
  have unequal' : ¬x.sameAllocator view := Ne.symm unequal
  cases op with
  | viewMoveIn =>
    rw [run, listViewMoveIn, if_neg unequal]
    rfl
  | viewMoveOut =>
    rw [run, listViewMoveOut, if_neg unequal]
    rfl
  | spliceBack =>
    rw [run, CilkL.spliceBack, if_neg unequal', StdContainer.range_of_valid ⟨Nat.zero_le _, Nat.le_refl _⟩]
    simp [contents, insertBack, StdContainer.insert_back, StdContainer.clear, stdList]
  | spliceBackAt i =>
    have isElement : x.elements[i]? = some (x.elements.get ⟨i, valid⟩) := List.getElem?_eq_getElem valid
    rw [run, CilkL.spliceBackAt, if_neg unequal', isElement, StdContainer.erase_of_valid ⟨Nat.le_succ i, valid⟩]
    simp only [Option.bind_eq_bind, Option.bind_some, Option.pure_def, Option.map_some, contents,
      StdContainer.insert_back, stdList, eraseIdx_eq_take_drop, reduceCtorEq, if_false]
    rw [take_one_drop valid]
  | spliceBackRange first last =>
    rw [run, CilkL.spliceBackRange, if_neg unequal', StdContainer.range_of_valid valid,
      StdContainer.erase_of_valid valid]
    simp [contents, insertBack, StdContainer.insert_back, stdList]
  | spliceFront =>
    rw [run, CilkL.spliceFront, if_neg unequal', StdContainer.range_of_valid ⟨Nat.le_refl 0, Nat.zero_le _⟩]
    simp [contents, insertFront, StdContainer.insert_front, StdContainer.clear]
  | spliceFrontAt i =>
    have isElement : x.elements[i]? = some (x.elements.get ⟨i, valid⟩) := List.getElem?_eq_getElem valid
    rw [run, CilkL.spliceFrontAt, if_neg unequal', isElement, StdContainer.erase_of_valid ⟨Nat.le_succ i, valid⟩]
    simp only [Option.bind_eq_bind, Option.bind_some, Option.pure_def, Option.map_some, contents,
      StdContainer.insert_front, stdList, eraseIdx_eq_take_drop, reduceCtorEq, if_false]
    rw [take_one_drop valid]
  | spliceFrontRange first last =>
    rw [run, CilkL.spliceFrontRange, if_neg unequal', StdContainer.range_of_valid valid,
      StdContainer.erase_of_valid valid]
    simp [contents, insertFront, StdContainer.insert_front, stdList]

end ListViewOperation

/-- A function of the list views leaves the same elements with unequal allocators as with equal ones, those of
the operation of `std::list` that it stands for, exactly if it is not `splice_front` of a whole list that has
elements. -/
theorem list_operation_paths_agree {view x view' x' : StdContainer α A} (op : ListViewOperation)
    (sameView : view'.elements = view.elements) (sameX : x'.elements = x.elements)
    (unequal : view.allocator ≠ x.allocator) (equal : view'.allocator = x'.allocator)
    (valid : op.Valid x.elements) :
    ((op.run view x).map contents = (op.run view' x').map contents ∧
      (op.run view x).map contents = some (op.stdList view.elements x.elements)) ↔
        ¬(op = .spliceFront ∧ x.elements ≠ []) := by
  rw [ListViewOperation.run_unequal unequal valid, ListViewOperation.run_equal equal (sameX ▸ valid), sameView,
    sameX, and_self]
  by_cases isFront : op = .spliceFront
  · rw [if_pos isFront, isFront]
    simp [ListViewOperation.stdList]
  · simp [isFront]

/-- `splice_back` of one element. -/
theorem list_operation_paths_agree_spliceBackAt :
    ((ListViewOperation.spliceBackAt 1).run (⟨[1, 2], false⟩ : StdContainer Nat Bool) ⟨[3, 4, 5], true⟩).map contents =
      ((ListViewOperation.spliceBackAt 1).run ⟨[1, 2], true⟩ ⟨[3, 4, 5], true⟩).map contents :=
  ((@list_operation_paths_agree Nat Bool _ ⟨[1, 2], false⟩ ⟨[3, 4, 5], true⟩ ⟨[1, 2], true⟩ ⟨[3, 4, 5], true⟩
    (.spliceBackAt 1) rfl rfl (by decide) rfl (by change 1 < 3; decide)).2 (by decide)).1

/-- `splice_front` of a whole list, with unequal allocators: the elements are in neither list afterwards. -/
theorem spliceFront_loses_elements :
    (ListViewOperation.spliceFront.run (⟨[1, 2], false⟩ : StdContainer Nat Bool) ⟨[3, 4], true⟩).map contents =
        some ([1, 2], []) ∧
      (ListViewOperation.spliceFront.run (⟨[1, 2], true⟩ : StdContainer Nat Bool) ⟨[3, 4], true⟩).map contents =
        some ([3, 4, 1, 2], []) ∧
      ListViewOperation.spliceFront.stdList [1, 2] [3, 4] = ([3, 4, 1, 2], []) := by
  decide

end CilkL
