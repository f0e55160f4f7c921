/-
Module: CilkL.Library.StampedMemory
Layer: Library
Purpose: Linked values in a memory whose cells are stored into again. A value that links to a cell carries a
  stamp: how often the cell had been stored into when the link was made. A value is current while no cell on
  the way along the links has been stored into since. A relation between a value and the one it links to, which
  holds when the link is made, then holds all along the way from a current value.
Imports: Mathlib.Logic.Function.Basic
Trusted boundary: none
Main exports: Stamped, StampedMemory, StampedMemory.Current, StampedMemory.Sound, StampedMemory.Current.rule,
  Walk
Open obligations: none
-/
import Mathlib.Logic.Function.Basic

namespace CilkL

variable {α β : Type*}

/-- A value with the stamp of its link; a value that nobody linked has none. -/
structure Stamped (β : Type*) where
  value : β
  stamp : Option Nat

/-- Cells, and how often each has been stored into. -/
structure StampedMemory (α β : Type*) where
  cell : α → Stamped β
  writes : α → Nat

/-- The values met along the links from a first one, to one that has no link. -/
def Walk (link : β → Option α) (get : α → β) : β → List β → Prop
  | _, [] => False
  | first, value :: rest =>
      value = first ∧
        match link first with
        | none => rest = []
        | some a => Walk link get (get a) rest

namespace StampedMemory

section Stores

variable [DecidableEq α]

/-- A store. -/
def store (m : StampedMemory α β) (a : α) (s : Stamped β) : StampedMemory α β where
  cell := Function.update m.cell a s
  writes := Function.update m.writes a (m.writes a + 1)

/-- A store that nothing linked to the cell relies on. -/
def refresh (m : StampedMemory α β) (a : α) (s : Stamped β) : StampedMemory α β :=
  { m with cell := Function.update m.cell a s }

@[simp] theorem store_cell_self (m : StampedMemory α β) (a : α) (s : Stamped β) :
    (m.store a s).cell a = s := by
  simp [store]

@[simp] theorem store_writes_self (m : StampedMemory α β) (a : α) (s : Stamped β) :
    (m.store a s).writes a = m.writes a + 1 := by
  simp [store]

theorem store_cell_of_ne {a b : α} (other : b ≠ a) (m : StampedMemory α β) (s : Stamped β) :
    (m.store a s).cell b = m.cell b :=
  Function.update_of_ne other _ _

theorem store_writes_of_ne {a b : α} (other : b ≠ a) (m : StampedMemory α β) (s : Stamped β) :
    (m.store a s).writes b = m.writes b :=
  Function.update_of_ne other _ _

theorem writes_le_store (m : StampedMemory α β) (a b : α) (s : Stamped β) :
    m.writes b ≤ (m.store a s).writes b := by
  by_cases same : b = a
  · subst same
    rw [store_writes_self]
    exact Nat.le_succ _
  · exact Nat.le_of_eq (store_writes_of_ne same m s).symm

@[simp] theorem refresh_cell_self (m : StampedMemory α β) (a : α) (s : Stamped β) :
    (m.refresh a s).cell a = s := by
  simp [refresh]

theorem refresh_cell_of_ne {a b : α} (other : b ≠ a) (m : StampedMemory α β) (s : Stamped β) :
    (m.refresh a s).cell b = m.cell b :=
  Function.update_of_ne other _ _

end Stores

/-- A value that links to a cell as it is now. -/
def linked (m : StampedMemory α β) (a : α) (value : β) : Stamped β where
  value := value
  stamp := some (m.writes a)

variable {link : β → Option α} {m : StampedMemory α β} {s t : Stamped β} {cells : List α} {a : α}

/-- No cell on the way from a value has been stored into since the link to it was made; the cells are listed
in the order of the way. -/
inductive Current (link : β → Option α) (m : StampedMemory α β) : Stamped β → List α → Prop where
  | root {s : Stamped β} (isRoot : link s.value = none) (made : s.stamp.isSome) : Current link m s []
  | step {s : Stamped β} {a : α} {cells : List α} (isLink : link s.value = some a)
      (fresh : s.stamp = some (m.writes a)) (rest : Current link m (m.cell a) cells) :
      Current link m s (a :: cells)

/-- What is known of a value: when it has no link, `base`; while the cell that it links to is as it was, `rel`
between the two. -/
structure Sound (link : β → Option α) (base : β → Prop) (rel : β → β → Prop) (m : StampedMemory α β)
    (s : Stamped β) : Prop where
  ofRoot : s.stamp.isSome → link s.value = none → base s.value
  stamp_le : ∀ k a, s.stamp = some k → link s.value = some a → k ≤ m.writes a
  ofLink : ∀ a, link s.value = some a → s.stamp = some (m.writes a) → rel s.value (m.cell a).value

namespace Current

/-- The way from a current value is the walk along the links. -/
theorem walk (current : Current link m s cells) :
    Walk link (fun a => (m.cell a).value) s.value (s.value :: cells.map fun a => (m.cell a).value) := by
  induction current with
  | root isRoot made => simp [Walk, isRoot]
  | step isLink fresh rest ih => simpa [Walk, isLink] using ih

/-- The way of a current value that has a link starts with the cell it links to. -/
theorem inv {a : α} (current : Current link m s cells) (isLink : link s.value = some a) :
    ∃ rest, cells = a :: rest ∧ s.stamp = some (m.writes a) ∧ Current link m (m.cell a) rest := by
  cases current with
  | root isRoot made => exact absurd (isRoot.symm.trans isLink) (by simp)
  | step isLink' fresh rest =>
      obtain rfl := Option.some.inj (isLink'.symm.trans isLink)
      exact ⟨_, rfl, fresh, rest⟩

/-- The way from a value depends on its link and its stamp only. -/
theorem congr (current : Current link m s cells) (sameLink : link t.value = link s.value)
    (sameStamp : t.stamp = s.stamp) : Current link m t cells := by
  cases current with
  | root isRoot made => exact .root (sameLink.trans isRoot) (sameStamp ▸ made)
  | step isLink fresh rest => exact .step (sameLink.trans isLink) (sameStamp.trans fresh) rest

/-- A relation that holds at the root and along each link holds along the way. -/
theorem rule {base : β → Prop} {rel : β → β → Prop} {P : List β → Prop}
    (current : Current link m s cells) (sound : Sound link base rel m s)
    (cellsSound : ∀ a, Sound link base rel m (m.cell a))
    (one : ∀ value, base value → P [value])
    (more : ∀ value next rest, rel value next → P (next :: rest) → P (value :: next :: rest)) :
    P (s.value :: cells.map fun a => (m.cell a).value) := by
  induction current with
  | root isRoot made => exact one _ (sound.ofRoot made isRoot)
  | step isLink fresh rest ih => exact more _ _ _ (sound.ofLink _ isLink fresh) (ih (cellsSound _))

/-- There is one way from a value. -/
theorem unique {cells' : List α} (current : Current link m s cells) (current' : Current link m s cells') :
    cells = cells' := by
  induction current generalizing cells' with
  | root isRoot made =>
      cases current' with
      | root _ _ => rfl
      | step isLink _ _ => exact absurd (isRoot.symm.trans isLink) (by simp)
  | step isLink fresh rest ih =>
      obtain ⟨rest', rfl, -, tail⟩ := current'.inv isLink
      rw [ih tail]

/-- The way goes on from each of its cells. -/
theorem tail (current : Current link m s cells) (onWay : a ∈ cells) :
    ∃ earlier later, cells = earlier ++ a :: later ∧ Current link m (m.cell a) later := by
  induction current with
  | root isRoot made => simp at onWay
  | @step s b cells isLink fresh rest ih =>
      rcases List.mem_cons.mp onWay with rfl | later
      · exact ⟨[], cells, rfl, rest⟩
      · obtain ⟨earlier, after, rfl, current⟩ := ih later
        exact ⟨b :: earlier, after, rfl, current⟩

/-- A cell is not on the way from itself. -/
theorem not_mem_cell {a : α} (current : Current link m (m.cell a) cells) : a ∉ cells := by
  intro onWay
  obtain ⟨earlier, later, rfl, again⟩ := current.tail onWay
  have same := congrArg List.length (current.unique again)
  simp at same
  omega

variable [DecidableEq α]

/-- A store off the way leaves a value current. -/
theorem store (current : Current link m s cells) (off : a ∉ cells) :
    Current link (m.store a t) s cells := by
  induction current with
  | root isRoot made => exact .root isRoot made
  | step isLink fresh rest ih =>
      obtain ⟨other, off⟩ := not_or.mp (mt List.mem_cons.mpr off)
      replace other := Ne.symm other
      refine .step isLink (fresh.trans ?_) ?_
      · rw [store_writes_of_ne other]
      · rw [store_cell_of_ne other]
        exact ih off

/-- So does one that keeps the links to the cell. -/
theorem refresh (current : Current link m s cells) (off : a ∉ cells) :
    Current link (m.refresh a t) s cells := by
  induction current with
  | root isRoot made => exact .root isRoot made
  | step isLink fresh rest ih =>
      obtain ⟨other, off⟩ := not_or.mp (mt List.mem_cons.mpr off)
      refine .step isLink fresh ?_
      rw [refresh_cell_of_ne (Ne.symm other)]
      exact ih off

end Current

namespace Sound

variable {base : β → Prop} {rel : β → β → Prop}

/-- Nothing is known of a value without a stamp. -/
theorem of_none (unmade : s.stamp = none) : Sound link base rel m s where
  ofRoot made := by simp [unmade] at made
  stamp_le k a isStamp := by simp [unmade] at isStamp
  ofLink a _ isStamp := by simp [unmade] at isStamp

/-- A value without a link. -/
theorem of_root (isRoot : link s.value = none) (isBase : base s.value) : Sound link base rel m s where
  ofRoot _ _ := isBase
  stamp_le k a _ isLink := by simp [isRoot] at isLink
  ofLink a isLink := by simp [isRoot] at isLink

/-- A value that has just been linked. -/
theorem of_linked {value : β} (isLink : link value = some a) (related : rel value (m.cell a).value) :
    Sound link base rel m (m.linked a value) where
  ofRoot _ isRoot := by simp [linked, isLink] at isRoot
  stamp_le k b isStamp isLink' := by
    obtain rfl : a = b := Option.some.inj (isLink.symm.trans isLink')
    exact Nat.le_of_eq (Option.some.inj isStamp).symm
  ofLink b isLink' _ := by
    obtain rfl : a = b := Option.some.inj (isLink.symm.trans isLink')
    exact related

/-- Another value with the same link and stamp. -/
theorem map (sound : Sound link base rel m s) (sameLink : link t.value = link s.value)
    (sameStamp : t.stamp = s.stamp) (toBase : base s.value → base t.value)
    (toRel : ∀ next, rel s.value next → rel t.value next) : Sound link base rel m t where
  ofRoot made isRoot := toBase (sound.ofRoot (sameStamp ▸ made) (sameLink.symm.trans isRoot))
  stamp_le k a isStamp isLink := sound.stamp_le k a (sameStamp.symm.trans isStamp) (sameLink.symm.trans isLink)
  ofLink a isLink fresh :=
    toRel _ (sound.ofLink a (sameLink.symm.trans isLink) (sameStamp.symm.trans fresh))

variable [DecidableEq α]

/-- A store takes nothing from what is known of a value, for a link to the cell is older than the store. -/
theorem store (sound : Sound link base rel m s) (a : α) (t : Stamped β) :
    Sound link base rel (m.store a t) s where
  ofRoot := sound.ofRoot
  stamp_le k b isStamp isLink := Nat.le_trans (sound.stamp_le k b isStamp isLink) (m.writes_le_store a b t)
  ofLink b isLink fresh := by
    by_cases same : b = a
    · subst same
      have old := sound.stamp_le _ b fresh isLink
      rw [store_writes_self] at old
      exact absurd old (Nat.not_succ_le_self _)
    · rw [store_writes_of_ne same] at fresh
      rw [store_cell_of_ne same]
      exact sound.ofLink b isLink fresh

/-- A store that keeps the relation to the cell. -/
theorem refresh (sound : Sound link base rel m s) (a : α) (t : Stamped β)
    (kept : ∀ value, rel value (m.cell a).value → rel value t.value) :
    Sound link base rel (m.refresh a t) s where
  ofRoot := sound.ofRoot
  stamp_le := sound.stamp_le
  ofLink b isLink fresh := by
    by_cases same : b = a
    · subst same
      rw [refresh_cell_self]
      exact kept _ (sound.ofLink b isLink fresh)
    · rw [refresh_cell_of_ne same]
      exact sound.ofLink b isLink fresh

end Sound

end StampedMemory

end CilkL
