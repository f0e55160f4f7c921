/-
Module: CilkL.Proofs.CilkFor
Layer: Proofs
Purpose: `cilk_for_recursive` covers its range exactly once. The induction is on the length of the
  range: where the range is longer than the grain it has at least two indices, so both halves are
  shorter and neither is empty, and the two tilings meet at `mid`.
Imports: CilkL.Library.Tiling, CilkL.Runtime.CilkFor, Mathlib.Data.Nat.Basic
Trusted boundary: none
Main exports: CoversRange, cilkForRecursive_covers, cilk_for_covers_once
Open obligations: none
-/
import CilkL.Library.Tiling
import CilkL.Runtime.CilkFor
import Mathlib.Data.Nat.Basic

namespace CilkL

variable {w : Nat} {grain : BitVec 32} {low high : BitVec w}

/-- What the comments at `tail_recurse` and at the split promise, and the absence of overflow: the range
holds an index; if it is split it holds two, and `mid` is computed without wrapping around. -/
def CilkForEvent.Sound (grain : BitVec 32) : CilkForEvent w → Prop
  | .tailRecurse low high =>
      0#w < high - low ∧
        (grainCount grain < high - low →
          2#w ≤ high - low ∧ low.toNat + ((high - low) / 2#w).toNat < 2 ^ w)
  | .body _ _ => True

/-- A finished execution did what it should on its range. -/
structure CoversRange (grain : BitVec 32) (low high : BitVec w) (events : List (CilkForEvent w)) :
    Prop where
  tiles : Tiles low.toNat (bodyRanges events) high.toNat
  short : ∀ range ∈ bodyRanges events, (range.2 : Int) - range.1 ≤ grain.toInt
  sound : ∀ event ∈ events, event.Sound grain

/-- A positive grain converts to the same number in every count type of at least 32 bits. -/
theorem grainCount_toNat (wide : 32 ≤ w) (positive : 1 ≤ grain.toInt) :
    ((grainCount grain : BitVec w).toNat : Int) = grain.toInt := by
  have msb : grain.msb = false := by
    rw [BitVec.msb_eq_toInt]
    simpa using (by omega : 0 ≤ grain.toInt)
  rw [grainCount, BitVec.signExtend_eq_setWidth_of_msb_false msb, BitVec.toInt_eq_toNat_of_msb msb,
    BitVec.toNat_setWidth]
  have fits : grain.toNat < 2 ^ w :=
    lt_of_lt_of_le grain.isLt (Nat.pow_le_pow_right (by decide) wide)
  rw [Nat.mod_eq_of_lt fits]

/-- The subtraction that computes `count` does not wrap around. -/
theorem count_toNat (nonempty : low < high) : (high - low).toNat = high.toNat - low.toNat :=
  BitVec.toNat_sub_of_le (BitVec.le_of_lt nonempty)

/-- Half of a count that holds two indices, as a number. -/
theorem half_toNat (wide : 32 ≤ w) (count : BitVec w) : (count / 2#w).toNat = count.toNat / 2 := by
  have two : (2#w).toNat = 2 := by
    rw [BitVec.toNat_ofNat]
    exact Nat.mod_eq_of_lt (lt_of_lt_of_le (by decide) (Nat.pow_le_pow_right (by decide) wide))
  rw [BitVec.toNat_udiv, two]

/-- The split computes the middle of the range, and the addition does not wrap around. -/
theorem cilkForMid_toNat (wide : 32 ≤ w) (nonempty : low < high) :
    low.toNat + ((high - low) / 2#w).toNat < 2 ^ w ∧
      (cilkForMid low high).toNat = low.toNat + (high.toNat - low.toNat) / 2 := by
  have below : low.toNat < high.toNat := nonempty
  have bound := high.isLt
  have half := half_toNat wide (high - low)
  rw [count_toNat nonempty] at half
  have fits : low.toNat + ((high - low) / 2#w).toNat < 2 ^ w := by omega
  refine ⟨fits, ?_⟩
  rw [cilkForMid, BitVec.toNat_add_of_lt fits, half]

/-- A range longer than the grain holds at least two indices. -/
theorem two_le_of_grain_lt (wide : 32 ≤ w) (positive : 1 ≤ grain.toInt) {count : BitVec w}
    (split : grainCount grain < count) : 2 ≤ count.toNat := by
  have value := grainCount_toNat wide positive
  have longer : (grainCount grain : BitVec w).toNat < count.toNat := split
  omega

/-- Every pass over `tail_recurse` with a range that is not empty keeps what the comments promise. -/
theorem tailRecurse_sound (wide : 32 ≤ w) (positive : 1 ≤ grain.toInt) (nonempty : low < high) :
    (CilkForEvent.tailRecurse low high).Sound grain := by
  have below : low.toNat < high.toNat := nonempty
  constructor
  · show (0#w).toNat < (high - low).toNat
    rw [count_toNat nonempty, BitVec.toNat_ofNat, Nat.zero_mod]
    omega
  · intro split
    refine ⟨?_, (cilkForMid_toNat wide nonempty).1⟩
    show (2#w).toNat ≤ (high - low).toNat
    exact le_trans (BitVec.toNat_ofNat 2 w ▸ Nat.mod_le 2 _) (two_le_of_grain_lt wide positive split)

/-- A range within the grain goes to the body in one piece. -/
theorem CoversRange.body (wide : 32 ≤ w) (positive : 1 ≤ grain.toInt) (nonempty : low < high)
    (within : ¬ grainCount grain < high - low) :
    CoversRange grain low high [.tailRecurse low high, .body low high] where
  tiles := Tiles.single nonempty
  short := by
    intro range isRange
    have only : range = (low.toNat, high.toNat) := List.mem_singleton.mp isRange
    have value := grainCount_toNat wide positive
    have shorter : (high - low).toNat ≤ (grainCount grain : BitVec w).toNat := Nat.le_of_not_lt within
    have below : low.toNat < high.toNat := nonempty
    rw [count_toNat nonempty] at shorter
    subst only
    show (high.toNat : Int) - low.toNat ≤ grain.toInt
    omega
  sound := by
    intro event isEvent
    rcases List.mem_cons.mp isEvent with entry | call
    · subst entry
      exact tailRecurse_sound wide positive nonempty
    · rw [List.mem_singleton.mp call]
      trivial

/-- The spawned half and the continued half together cover the range. -/
theorem CoversRange.split {mid : BitVec w} {spawned continued : List (CilkForEvent w)}
    (left : CoversRange grain low mid spawned) (right : CoversRange grain mid high continued)
    (entry : (CilkForEvent.tailRecurse low high).Sound grain) :
    CoversRange grain low high (.tailRecurse low high :: (spawned ++ continued)) := by
  have ranges : bodyRanges (.tailRecurse low high :: (spawned ++ continued)) =
      bodyRanges spawned ++ bodyRanges continued := by
    rw [bodyRanges, List.filterMap_cons_none rfl, List.filterMap_append, List.map_append]
    rfl
  constructor
  · rw [ranges]
    exact left.tiles.append right.tiles
  · rw [ranges]
    intro range isRange
    rcases List.mem_append.mp isRange with inLeft | inRight
    · exact left.short range inLeft
    · exact right.short range inRight
  · intro event isEvent
    rcases List.mem_cons.mp isEvent with first | later
    · exact first ▸ entry
    · rcases List.mem_append.mp later with inLeft | inRight
      · exact left.sound event inLeft
      · exact right.sound event inRight

/-- For every range that is not empty the recursion finishes, with fuel for the length of the range. -/
theorem cilkForRecursive_covers (wide : 32 ≤ w) (positive : 1 ≤ grain.toInt) (fuel : Nat)
    (low high : BitVec w) (nonempty : low < high) (enough : high.toNat - low.toNat ≤ fuel) :
    ∃ events, cilkForRecursive grain fuel low high = some events ∧
      CoversRange grain low high events := by
  have below : low.toNat < high.toNat := nonempty
  induction fuel generalizing low high with
  | zero => omega
  | succ fuel ih =>
    by_cases split : grainCount grain < high - low
    · have entry := tailRecurse_sound wide positive nonempty
      have two := two_le_of_grain_lt wide positive split
      rw [count_toNat nonempty] at two
      have middle := (cilkForMid_toNat wide nonempty).2
      -- both halves are shorter than the range and neither is empty
      have leftNonempty : low < cilkForMid low high := by
        show low.toNat < (cilkForMid low high).toNat
        omega
      have rightNonempty : cilkForMid low high < high := by
        show (cilkForMid low high).toNat < high.toNat
        omega
      rcases ih low (cilkForMid low high) leftNonempty (by omega) (by omega) with
        ⟨spawned, ranSpawned, left⟩
      rcases ih (cilkForMid low high) high rightNonempty (by omega) (by omega) with
        ⟨continued, ranContinued, right⟩
      refine ⟨_, ?_, left.split right entry⟩
      simp only [cilkForRecursive, if_pos split, ranSpawned, ranContinued]
    · refine ⟨_, ?_, CoversRange.body wide positive nonempty split⟩
      simp only [cilkForRecursive, if_neg split]

/-- More fuel does not change what the recursion does. -/
theorem cilkForRecursive_more {fuel fuel' : Nat} {events : List (CilkForEvent w)}
    (ran : cilkForRecursive grain fuel low high = some events) (more : fuel ≤ fuel') :
    cilkForRecursive grain fuel' low high = some events := by
  induction fuel generalizing low high events fuel' with
  | zero => simp [cilkForRecursive] at ran
  | succ fuel ih =>
    obtain ⟨extra, rfl⟩ : ∃ extra, fuel' = extra + 1 := ⟨fuel' - 1, by omega⟩
    simp only [cilkForRecursive] at ran ⊢
    split at ran
    · rename_i split
      split at ran
      · rename_i spawned continued ranSpawned ranContinued
        rw [if_pos split, ih ranSpawned (by omega), ih ranContinued (by omega)]
        exact ran
      · exact absurd ran (by simp)
    · rename_i within
      rw [if_neg within]
      exact ran

/-- Both count types have at least the width of `int`. -/
theorem CountType.wide (type : CountType) : 32 ≤ type.width := by
  cases type <;> decide

/-- `cilk_for_recursive` terminates on every range that is not empty, with every positive grain; the
intervals it passes to the body are consecutive, none is empty or longer than the grain, and their union
is the range; and the invariants in its comments hold at every pass over `tail_recurse`. -/
theorem cilk_for_covers_once (type : CountType) (grain : BitVec 32) (low high : BitVec type.width)
    (nonempty : low < high) (positive : 1 ≤ grain.toInt) :
    ∃ events,
      (∀ fuel, high.toNat - low.toNat ≤ fuel → cilkForRecursive grain fuel low high = some events) ∧
      Tiles low.toNat (bodyRanges events) high.toNat ∧
      (∀ range ∈ bodyRanges events, range.1 < range.2 ∧ (range.2 : Int) - range.1 ≤ grain.toInt) ∧
      (∀ i, (∃ range ∈ bodyRanges events, range.1 ≤ i ∧ i < range.2) ↔
        low.toNat ≤ i ∧ i < high.toNat) ∧
      ∀ event ∈ events, event.Sound grain := by
  obtain ⟨events, ran, covers⟩ :=
    cilkForRecursive_covers type.wide positive _ low high nonempty (le_refl _)
  refine ⟨events, fun fuel enough => cilkForRecursive_more ran enough, covers.tiles, ?_,
    covers.tiles.covers, covers.sound⟩
  intro range isRange
  exact ⟨(covers.tiles.inside range isRange).2.1, covers.short range isRange⟩

/-- The whole range of the 32-bit type with the largest grain. -/
theorem cilk_for_covers_once_limits :
    ∃ events,
      (∀ fuel, (0xffffffff#32).toNat - (0#32).toNat ≤ fuel →
        cilkForRecursive 0x7fffffff#32 fuel 0#32 0xffffffff#32 = some events) ∧
      Tiles (0#32).toNat (bodyRanges events) (0xffffffff#32).toNat ∧
      (∀ range ∈ bodyRanges events,
        range.1 < range.2 ∧ (range.2 : Int) - range.1 ≤ (0x7fffffff#32).toInt) ∧
      (∀ i, (∃ range ∈ bodyRanges events, range.1 ≤ i ∧ i < range.2) ↔
        (0#32).toNat ≤ i ∧ i < (0xffffffff#32).toNat) ∧
      ∀ event ∈ events, event.Sound 0x7fffffff#32 :=
  cilk_for_covers_once .cilk32 0x7fffffff#32 0#32 0xffffffff#32 (by decide) (by decide)

end CilkL
