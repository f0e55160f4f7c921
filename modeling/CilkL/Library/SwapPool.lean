/-
Module: CilkL.Library.SwapPool
Layer: Library
Purpose: An array whose elements know their own slot, with the removal that moves the last element into the
  gap. The array is a list, and the slots are a function on the elements.
Imports: Mathlib.Data.List.Nodup, Mathlib.Data.List.Perm.Basic
Trusted boundary: none
Main exports: swapRemove, Slots, swapRemove_perm, Slots.append, Slots.swapRemove
Open obligations: none
-/
import Mathlib.Data.List.Nodup
import Mathlib.Data.List.Perm.Basic

namespace CilkL

variable {α : Type*}

/-- Removal of slot `i`: the last element moves there, and the array shrinks by one. -/
def swapRemove (l : List α) (i : ℕ) : List α :=
  match l.getLast? with
  | some last => (l.set i last).dropLast
  | none => []

theorem swapRemove_concat (l : List α) (last : α) (i : ℕ) :
    swapRemove (l ++ [last]) i = if i = l.length then l else l.set i last := by
  simp only [swapRemove, List.getLast?_concat]
  split_ifs with isLast
  · subst isLast
    simp
  · rcases Nat.lt_or_ge i l.length with inside | beyond
    · simp [inside]
    · rw [List.set_eq_of_length_le (by simp; omega), List.dropLast_concat,
        List.set_eq_of_length_le beyond]

/-- The removed element is the only one that is gone. -/
theorem swapRemove_perm {l : List α} {i : ℕ} {x : α} (at_i : l[i]? = some x) :
    (x :: swapRemove l i).Perm l := by
  rcases l.eq_nil_or_concat with rfl | ⟨init, last, rfl⟩
  · simp at at_i
  rw [List.concat_eq_append] at at_i ⊢
  rw [swapRemove_concat]
  split_ifs with isLast
  · subst isLast
    have : last = x := by simpa using at_i
    subst this
    exact (List.perm_append_singleton last init).symm
  · have inside : i < init.length := by
      have : i < (init ++ [last]).length := (List.getElem?_eq_some_iff.1 at_i).1
      simp only [List.length_append, List.length_singleton] at this
      omega
    have get : init[i] = x := by
      rw [List.getElem?_append_left inside, List.getElem?_eq_getElem inside] at at_i
      exact Option.some.inj at_i
    have moved : (init.set i last).Perm (last :: init.eraseIdx i) :=
      List.set_perm_cons_eraseIdx inside last
    have whole : (x :: init.eraseIdx i).Perm init := get ▸ List.getElem_cons_eraseIdx_perm inside
    exact (moved.cons x).trans ((List.Perm.swap last x _).trans
      ((whole.cons last).trans (List.perm_append_singleton last init).symm))

theorem mem_swapRemove {l : List α} {i : ℕ} {x y : α} (nodup : l.Nodup) (at_i : l[i]? = some x) :
    y ∈ swapRemove l i ↔ y ∈ l ∧ y ≠ x := by
  have perm := swapRemove_perm at_i
  have fresh : x ∉ swapRemove l i := (List.nodup_cons.1 (perm.nodup_iff.2 nodup)).1
  rw [← perm.mem_iff, List.mem_cons]
  constructor
  · intro member
    exact ⟨.inr member, fun same => fresh (same ▸ member)⟩
  · rintro ⟨rfl | member, other⟩
    · exact absurd rfl other
    · exact member

theorem nodup_swapRemove {l : List α} {i : ℕ} {x : α} (nodup : l.Nodup) (at_i : l[i]? = some x) :
    (swapRemove l i).Nodup :=
  (List.nodup_cons.1 ((swapRemove_perm at_i).nodup_iff.2 nodup)).2

/-! ### Slots -/

/-- Every element of the array knows its slot. -/
def Slots (slot : α → Int) (l : List α) : Prop :=
  ∀ (i : ℕ) x, l[i]? = some x → slot x = i

theorem Slots.nil (slot : α → Int) : Slots slot [] := by
  intro i x at_i
  simp at at_i

/-- Only the slots of the elements matter. -/
theorem Slots.congr {slot slot' : α → Int} {l : List α} (slots : Slots slot l)
    (same : ∀ x ∈ l, slot' x = slot x) : Slots slot' l := by
  intro i x at_i
  rw [same x (List.mem_of_getElem? at_i)]
  exact slots i x at_i

/-- A new element gets the slot behind the last one. -/
theorem Slots.append {slot slot' : α → Int} {l : List α} {x : α} (slots : Slots slot l)
    (same : ∀ y ∈ l, slot' y = slot y) (new : slot' x = l.length) : Slots slot' (l ++ [x]) := by
  intro i y at_i
  rcases Nat.lt_or_ge i l.length with old | behind
  · rw [List.getElem?_append_left old] at at_i
    exact slots.congr same i y at_i
  · rw [List.getElem?_append_right behind, List.getElem?_singleton] at at_i
    split_ifs at at_i with first
    obtain rfl := Option.some.inj at_i
    rw [new]
    omega

/-- After a removal the element that was moved has the slot of the one that is gone. -/
theorem Slots.swapRemove {slot slot' : α → Int} {l : List α} {i : ℕ} {x last : α}
    (slots : Slots slot l) (nodup : l.Nodup) (at_i : l[i]? = some x) (isLast : l.getLast? = some last)
    (moved : last ≠ x → slot' last = i)
    (same : ∀ y ∈ l, y ≠ x → y ≠ last → slot' y = slot y) : Slots slot' (swapRemove l i) := by
  obtain ⟨init, rfl⟩ := List.getLast?_eq_some_iff.1 isLast
  have fresh : last ∉ init := fun member => (List.nodup_append.1 nodup).2.2 last member last (by simp) rfl
  rw [swapRemove_concat]
  split_ifs with wasLast
  · subst wasLast
    have : last = x := by simpa using at_i
    subst this
    intro j y at_j
    have member := List.mem_of_getElem? at_j
    have other : y ≠ last := fun eq => fresh (eq ▸ member)
    rw [same y (by simp [member]) other other]
    exact slots j y (by rw [List.getElem?_append_left (List.getElem?_eq_some_iff.1 at_j).1]; exact at_j)
  · have inside : i < init.length := by
      have := (List.getElem?_eq_some_iff.1 at_i).1
      simp only [List.length_append, List.length_singleton] at this
      omega
    rw [List.getElem?_append_left inside] at at_i
    intro j y at_j
    rw [List.getElem?_set] at at_j
    split_ifs at at_j with here
    · subst here
      obtain rfl := Option.some.inj at_j
      exact moved fun eq => fresh (eq ▸ List.mem_of_getElem? at_i)
    · have member := List.mem_of_getElem? at_j
      have notLast : y ≠ last := fun eq => fresh (eq ▸ member)
      have other : y ≠ x := by
        rintro rfl
        have nodupInit := (List.nodup_append.1 nodup).1
        exact here ((List.getElem?_inj inside nodupInit).1 (at_i.trans at_j.symm))
      rw [same y (by simp [member]) other notLast]
      exact slots j y (by rw [List.getElem?_append_left (List.getElem?_eq_some_iff.1 at_j).1]; exact at_j)

end CilkL
