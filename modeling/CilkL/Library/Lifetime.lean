/-
Module: CilkL.Library.Lifetime
Layer: Library
Purpose: Objects that are released once: each object that was made is alive, retiring, or released. The
  rules say how an object is made, how it is retired and then released, or released at once.
Imports: Mathlib.Data.List.Nodup
Trusted boundary: none (fully proved)
Main exports: Lifetimes, Lifetimes.make, Lifetimes.retire, Lifetimes.release, Lifetimes.releaseAlive
Open obligations: none
-/
import Mathlib.Data.List.Nodup

namespace CilkL

variable {α : Type}

/-- The objects that were made, the ones of them that are alive, and the lists of the others. -/
structure Lifetimes (made alive : α → Prop) (retiring released : List α) : Prop where
  alive_iff : ∀ x, made x → (alive x ↔ x ∉ retiring ∧ x ∉ released)
  made_of_alive : ∀ x, alive x → made x
  made_of_retiring : ∀ x ∈ retiring, made x
  made_of_released : ∀ x ∈ released, made x
  retiringOnce : retiring.Nodup
  releasedOnce : released.Nodup
  apart : ∀ x ∈ retiring, x ∉ released

namespace Lifetimes

variable {made made' alive alive' : α → Prop} {retiring released : List α} {x : α}

/-- Nothing is made, retired or released. -/
theorem congr (lives : Lifetimes made alive retiring released) (sameMade : ∀ y, made' y ↔ made y)
    (sameAlive : ∀ y, alive' y ↔ alive y) : Lifetimes made' alive' retiring released := by
  obtain rfl : made' = made := funext fun y => propext (sameMade y)
  obtain rfl : alive' = alive := funext fun y => propext (sameAlive y)
  exact lives

/-- New objects are alive. -/
theorem make (lives : Lifetimes made alive retiring released) (more : ∀ y, made y → made' y)
    (isAlive : ∀ y, alive' y ↔ alive y ∨ made' y ∧ ¬made y) : Lifetimes made' alive' retiring released where
  alive_iff y isMade := by
    rw [isAlive]
    by_cases before : made y
    · rw [lives.alive_iff y before]
      exact ⟨fun known => known.resolve_right fun new => new.2 before, .inl⟩
    · refine ⟨fun _ => ⟨fun isRetiring => before (lives.made_of_retiring y isRetiring), fun isReleased => ?_⟩,
        fun _ => .inr ⟨isMade, before⟩⟩
      exact before (lives.made_of_released y isReleased)
  made_of_alive y known := by
    rcases (isAlive y).1 known with before | new
    · exact more y (lives.made_of_alive y before)
    · exact new.1
  made_of_retiring y isRetiring := more y (lives.made_of_retiring y isRetiring)
  made_of_released y isReleased := more y (lives.made_of_released y isReleased)
  retiringOnce := lives.retiringOnce
  releasedOnce := lives.releasedOnce
  apart := lives.apart

/-- An object is retired. -/
theorem retire (lives : Lifetimes made alive retiring released) (isAlive : alive x)
    (others : ∀ y, alive' y ↔ alive y ∧ y ≠ x) : Lifetimes made alive' (x :: retiring) released := by
  have isMade := lives.made_of_alive x isAlive
  obtain ⟨notRetiring, notReleased⟩ := (lives.alive_iff x isMade).1 isAlive
  constructor
  · intro y madeY
    rw [others, lives.alive_iff y madeY, List.mem_cons, not_or]
    exact ⟨fun known => ⟨⟨known.2, known.1.1⟩, known.1.2⟩, fun known => ⟨⟨known.1.2, known.2⟩, known.1.1⟩⟩
  · exact fun y known => lives.made_of_alive y ((others y).1 known).1
  · exact List.forall_mem_cons.2 ⟨isMade, lives.made_of_retiring⟩
  · exact lives.made_of_released
  · exact List.nodup_cons.2 ⟨notRetiring, lives.retiringOnce⟩
  · exact lives.releasedOnce
  · exact List.forall_mem_cons.2 ⟨notReleased, lives.apart⟩

/-- A retiring object is released. -/
theorem release [DecidableEq α] (lives : Lifetimes made alive retiring released) (isRetiring : x ∈ retiring) :
    Lifetimes made alive (retiring.erase x) (released ++ [x]) := by
  have erased : ∀ y, y ∈ retiring.erase x ↔ y ≠ x ∧ y ∈ retiring := fun y => lives.retiringOnce.mem_erase_iff
  constructor
  · intro y madeY
    rw [lives.alive_iff y madeY, erased, List.mem_append, List.mem_singleton]
    by_cases here : y = x
    · subst here
      exact ⟨fun known => absurd isRetiring known.1, fun known => absurd (.inr rfl) known.2⟩
    · simp [here]
  · exact lives.made_of_alive
  · exact fun y member => lives.made_of_retiring y ((erased y).1 member).2
  · intro y member
    rcases List.mem_append.1 member with before | new
    · exact lives.made_of_released y before
    · rw [List.mem_singleton.1 new]
      exact lives.made_of_retiring x isRetiring
  · exact lives.retiringOnce.erase x
  · refine List.nodup_append.2 ⟨lives.releasedOnce, List.nodup_singleton x, fun y before z new => ?_⟩
    rw [List.mem_singleton.1 new]
    rintro rfl
    exact lives.apart _ isRetiring before
  · intro y member isReleased
    obtain ⟨other, before⟩ := (erased y).1 member
    rcases List.mem_append.1 isReleased with old | new
    · exact lives.apart y before old
    · exact other (List.mem_singleton.1 new)

/-- An object is released that was not retired before. -/
theorem releaseAlive [DecidableEq α] (lives : Lifetimes made alive retiring released) (isAlive : alive x)
    (others : ∀ y, alive' y ↔ alive y ∧ y ≠ x) : Lifetimes made alive' retiring (released ++ [x]) := by
  have retired := (lives.retire isAlive others).release List.mem_cons_self
  rwa [List.erase_cons_head] at retired

/-- What is not alive and not released is retiring. -/
theorem retiring_of_made (lives : Lifetimes made alive retiring released) (isMade : made x) (dead : ¬alive x)
    (notReleased : x ∉ released) : x ∈ retiring := by
  by_contra notRetiring
  exact dead ((lives.alive_iff x isMade).2 ⟨notRetiring, notReleased⟩)

end Lifetimes

end CilkL
