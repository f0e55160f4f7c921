/-
Module: CilkL.Library.Exclusive
Layer: Library
Purpose: Items at places, no item at two of them. An item that is put to a place is at no other.
Imports: Mathlib.Tactic.TypeStar
Trusted boundary: none
Main exports: Exclusive, Exclusive.mono, Exclusive.put, Exclusive.fresh
Open obligations: none
-/
import Mathlib.Tactic.TypeStar

namespace CilkL

/-- No item is at two places. -/
def Exclusive {π α : Type*} (holds : π → α → Prop) : Prop :=
  ∀ p q x, holds p x → holds q x → p = q

namespace Exclusive

variable {π α : Type*} {holds holds' : π → α → Prop} {dst : π} {x : α}

/-- Places are left. -/
theorem mono (exclusive : Exclusive holds) (still : ∀ p y, holds' p y → holds p y) : Exclusive holds' :=
  fun p q y atP atQ => exclusive p q y (still p y atP) (still q y atQ)

/-- An item is put to a place, and is at no other. -/
theorem put (exclusive : Exclusive holds)
    (only : ∀ p y, holds' p y → (p = dst ∧ y = x) ∨ (holds p y ∧ y ≠ x)) : Exclusive holds' := by
  intro p q y atP atQ
  rcases only p y atP with ⟨rfl, rfl⟩ | ⟨wasP, other⟩
  · rcases only q y atQ with ⟨rfl, -⟩ | ⟨-, other⟩
    · rfl
    · exact absurd rfl other
  · rcases only q y atQ with ⟨-, rfl⟩ | ⟨wasQ, -⟩
    · exact absurd rfl other
    · exact exclusive p q y wasP wasQ

/-- An item that was at no place is put to one. -/
theorem fresh (exclusive : Exclusive holds) (isFresh : ∀ p, ¬holds p x)
    (only : ∀ p y, holds' p y → (p = dst ∧ y = x) ∨ holds p y) : Exclusive holds' :=
  exclusive.put fun p y at_p => (only p y at_p).imp_right fun still =>
    ⟨still, fun same => isFresh p (by rw [← same]; exact still)⟩

end Exclusive

end CilkL
