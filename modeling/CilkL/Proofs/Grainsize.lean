/-
Module: CilkL.Proofs.Grainsize
Layer: Proofs
Purpose: When `grainsize` returns the grain that its comments describe. The rounded division is the one
  over the integers as long as `count + P * 8 - 1` fits in the count type; where it wraps around, what is
  left is less than `P * 8` and the grain is 0, with which `cilk_for_recursive` splits off empty ranges
  for ever.
Imports: CilkL.Proofs.CilkFor
Trusted boundary: none
Main exports: UsableGrain, grainsize_usable, cilkForRecursive_zero_grain
Open obligations: none
-/
import CilkL.Proofs.CilkFor

namespace CilkL

variable {w : Nat} {P req : BitVec 32} {count : BitVec w}

/-- What `grainsize` is for: a request is kept, a sequential tool gets 1, and otherwise the loop is cut in
eight parts for each worker, of at most 2048 iterations; the grain is positive, so that the loop that
runs with it ends. -/
structure UsableGrain (underPtool : Bool) (P req : BitVec 32) (count : BitVec w) : Prop where
  positive : 1 ≤ (grainsize underPtool P req count).toInt
  requested : 0 < req.toInt → grainsize underPtool P req count = req
  sequential : req.toInt ≤ 0 → underPtool = true → (grainsize underPtool P req count).toInt = 1
  /-- `(count + 8 * P - 1) / (8 * P)` over the integers is the quotient rounded up. -/
  shared : req.toInt ≤ 0 → underPtool = false →
    (grainsize underPtool P req count).toInt = min 2048 ((count.toNat + 8 * P.toInt - 1) / (8 * P.toInt))
  ends : ∃ fuel events, cilkForRoot underPtool P req fuel count = some events

/-- The condition: the rounding does not leave the count type, or is not reached. -/
def RoundingFits (underPtool : Bool) (P req : BitVec 32) (count : BitVec w) : Prop :=
  0 < req.toInt ∨ underPtool = true ∨ count.toNat + 8 * P.toInt - 1 < (2 ^ w : Nat)

/-- The worker count is positive and eight of it fit in an `int`. -/
structure WorkersFit (P : BitVec 32) : Prop where
  positive : 1 ≤ P.toInt
  fits : 8 * P.toInt < 2 ^ 31

theorem slt_zero_iff : (0#32).slt req = true ↔ 0 < req.toInt := by
  rw [BitVec.slt_iff_toInt_lt, BitVec.toInt_zero]

/-- `P * 8` is computed without overflow, and converted to the count type it keeps its value. -/
theorem WorkersFit.px8 (workers : WorkersFit P) (wide : 32 ≤ w) :
    (((P * 8#32).signExtend w : BitVec w).toNat : Int) = 8 * P.toInt := by
  have positive := workers.positive
  have fits := workers.fits
  have product : (P * 8#32).toInt = 8 * P.toInt := by
    rw [BitVec.toInt_mul, show (8#32).toInt = 8 from rfl, Int.mul_comm]
    exact Int.bmod_eq_of_le (by omega) (by omega)
  have isPositive : 1 ≤ (P * 8#32).toInt := by omega
  have signed := grainCount_toNat (w := w) wide isPositive
  rw [grainCount] at signed
  rw [signed, product]

/-- 1 in a count type. -/
theorem one_toNat (wide : 32 ≤ w) : (1#w).toNat = 1 := by
  rw [BitVec.toNat_ofNat]
  exact Nat.mod_eq_of_lt (Nat.lt_of_lt_of_le (by decide) (Nat.pow_le_pow_right (by decide) wide))

/-- 2048 in a count type. -/
theorem limit_toNat (wide : 32 ≤ w) : (2048#w).toNat = 2048 := by
  rw [BitVec.toNat_ofNat]
  exact Nat.mod_eq_of_lt (Nat.lt_of_lt_of_le (by decide) (Nat.pow_le_pow_right (by decide) wide))

/-- The count of a loop that is entered is not below 1. -/
theorem not_count_lt_one (wide : 32 ≤ w) (entered : 1 ≤ count.toNat) : ¬ count < 1#w := by
  intro less
  have less : count.toNat < (1#w).toNat := less
  rw [one_toNat wide] at less
  omega

/-- The numerator of the rounded division, modulo the count type. -/
theorem numerator_toNat (wide : 32 ≤ w) (entered : 1 ≤ count.toNat) (divisor : BitVec w) :
    (count + divisor - 1#w).toNat = (count.toNat + divisor.toNat - 1) % 2 ^ w := by
  have one := one_toNat wide
  have room : 1 < 2 ^ w := Nat.one_lt_two_pow (by omega)
  rw [BitVec.toNat_sub, BitVec.toNat_add, one, Nat.add_mod_mod]
  have shifted : 2 ^ w - 1 + (count.toNat + divisor.toNat) =
      count.toNat + divisor.toNat - 1 + 2 ^ w := by
    omega
  rw [shifted, Nat.add_mod_right]

/-- The quotient is the one over the integers while the numerator fits, and 0 once it wraps around. -/
theorem quotient_toNat (wide : 32 ≤ w) (entered : 1 ≤ count.toNat) (divisor : BitVec w)
    (positive : 0 < divisor.toNat) :
    ((count + divisor - 1#w) / divisor).toNat =
      if count.toNat + divisor.toNat - 1 < 2 ^ w then
        (count.toNat + divisor.toNat - 1) / divisor.toNat
      else 0 := by
  rw [BitVec.toNat_udiv, numerator_toNat wide entered]
  have countFits := count.isLt
  have divisorFits := divisor.isLt
  split
  · rename_i fits
    rw [Nat.mod_eq_of_lt fits]
  · rename_i wraps
    -- what is left after the wrap is below the divisor
    rw [Nat.mod_eq_sub_mod (by omega), Nat.mod_eq_of_lt (by omega)]
    exact Nat.div_eq_of_lt (by omega)

/-- Where no request was made and no sequential tool runs, the grain is the quotient, at most 2048. -/
theorem grainsize_shared (wide : 32 ≤ w) (entered : 1 ≤ count.toNat) (noRequest : req.toInt ≤ 0) :
    (grainsize false P req count).toInt =
      min 2048 (((count + (P * 8#32).signExtend w - 1#w) / (P * 8#32).signExtend w).toNat : Int) := by
  have notRequested : ¬ (0#32).slt req = true := by
    rw [slt_zero_iff]
    omega
  simp only [grainsize, notRequested, not_count_lt_one wide entered, if_false, Bool.false_eq_true]
  generalize (count + (P * 8#32).signExtend w - 1#w) / (P * 8#32).signExtend w = n
  have limit := limit_toNat wide
  split
  · rename_i above
    have above : (2048#w).toNat < n.toNat := above
    have kept : (2048#32).toInt = 2048 := by decide
    omega
  · rename_i within
    have within : ¬ (2048#w).toNat < n.toNat := within
    have kept : (n.setWidth 32).toNat = n.toNat := by
      rw [BitVec.toNat_setWidth]
      exact Nat.mod_eq_of_lt (by omega)
    rw [BitVec.toInt_eq_toNat_of_lt (by omega), kept]
    omega

/-- With a grain of 0 the recursion does not end: the upper part of a split is never empty. -/
theorem cilkForRecursive_zero_grain (wide : 32 ≤ w) (fuel : Nat) (low high : BitVec w)
    (nonempty : low < high) : cilkForRecursive 0#32 fuel low high = none := by
  induction fuel generalizing low with
  | zero => rfl
  | succ fuel ih =>
    have below : low.toNat < high.toNat := nonempty
    have count := count_toNat nonempty
    have zero : (grainCount 0#32 : BitVec w) = 0#w := by
      rw [grainCount, BitVec.signExtend_eq_setWidth_of_msb_false (by decide)]
      simp
    have split : (grainCount 0#32 : BitVec w) < high - low := by
      rw [zero]
      show (0#w).toNat < (high - low).toNat
      rw [BitVec.toNat_ofNat, Nat.zero_mod]
      omega
    have middle := cilkForMid_toNat wide nonempty
    have continues : cilkForRecursive 0#32 fuel (cilkForMid low high) high = none := by
      refine ih _ ?_
      show (cilkForMid low high).toNat < high.toNat
      omega
    simp only [cilkForRecursive, if_pos split, continues]
    cases cilkForRecursive 0#32 fuel low (cilkForMid low high) <;> rfl

/-- With a positive grain the loop of `cilk_for_root` ends. -/
theorem cilkForRoot_ends (wide : 32 ≤ w) (entered : 1 ≤ count.toNat) {underPtool : Bool}
    (positive : 1 ≤ (grainsize underPtool P req count).toInt) :
    ∃ fuel events, cilkForRoot underPtool P req fuel count = some events := by
  have nonempty : 0#w < count := by
    show (0#w).toNat < count.toNat
    rw [BitVec.toNat_ofNat, Nat.zero_mod]
    omega
  obtain ⟨events, ran, -⟩ :=
    cilkForRecursive_covers wide positive _ 0#w count nonempty (Nat.le_refl _)
  exact ⟨_, events, ran⟩

/-- `grainsize` returns a usable grain exactly where its rounding does not wrap around or is not
reached. -/
theorem grainsize_usable (type : CountType) (underPtool : Bool) (P req : BitVec 32)
    (count : BitVec type.width) (entered : 1 ≤ count.toNat) (workers : WorkersFit P) :
    UsableGrain underPtool P req count ↔ RoundingFits underPtool P req count := by
  have wide := type.wide
  have px8 := workers.px8 wide
  have positive := workers.positive
  have quotient := quotient_toNat wide entered ((P * 8#32).signExtend type.width) (by omega)
  constructor
  · intro usable
    by_contra wraps
    simp only [RoundingFits, not_or, Bool.not_eq_true] at wraps
    obtain ⟨noRequest, shared, wraps⟩ := wraps
    subst shared
    have notRequested : req.toInt ≤ 0 := by omega
    have grain := grainsize_shared (P := P) wide entered notRequested
    rw [quotient, if_neg (by omega)] at grain
    have := usable.positive
    omega
  · intro fits
    have requested : 0 < req.toInt → grainsize underPtool P req count = req := fun request => by
      rw [grainsize, if_pos (slt_zero_iff.mpr request)]
    have sequential : req.toInt ≤ 0 → underPtool = true →
        (grainsize underPtool P req count).toInt = 1 := by
      intro noRequest ptool
      have notRequested : ¬ (0#32).slt req = true := by
        rw [slt_zero_iff]
        omega
      rw [grainsize, if_neg notRequested, if_neg (not_count_lt_one wide entered), if_pos ptool]
      rfl
    have shared : req.toInt ≤ 0 → underPtool = false →
        (grainsize underPtool P req count).toInt =
          min 2048 ((count.toNat + 8 * P.toInt - 1) / (8 * P.toInt)) := by
      intro noRequest notPtool
      subst notPtool
      have within : count.toNat + 8 * P.toInt - 1 < (2 ^ type.width : Nat) := by
        rcases fits with request | ptool | within
        · omega
        · cases ptool
        · exact within
      have numerator : ((count.toNat + ((P * 8#32).signExtend type.width).toNat - 1 : Nat) : Int) =
          count.toNat + ((P * 8#32).signExtend type.width).toNat - 1 := by
        omega
      rw [grainsize_shared wide entered noRequest, quotient, if_pos (by omega), ← px8,
        Int.natCast_ediv, numerator]
    have atLeastOne : 1 ≤ (grainsize underPtool P req count).toInt := by
      by_cases request : 0 < req.toInt
      · rw [requested request]
        omega
      · cases ptool : underPtool with
        | true =>
          rw [ptool] at sequential
          have one := sequential (by omega) rfl
          omega
        | false =>
          rw [ptool] at shared
          rw [shared (by omega) rfl]
          have quotient : 1 ≤ (count.toNat + 8 * P.toInt - 1) / (8 * P.toInt) :=
            (Int.le_ediv_iff_mul_le (by omega)).mpr (by omega)
          omega
    exact ⟨atLeastOne, requested, sequential, shared, cilkForRoot_ends wide entered atLeastOne⟩

/-- A 32-bit loop of 2^32 - 8 iterations on one worker is cut to the limit of 2048. -/
theorem grainsize_usable_limit :
    1 ≤ (0xfffffff8#32).toNat ∧ UsableGrain false 1#32 0#32 0xfffffff8#32 :=
  ⟨by decide, (grainsize_usable .cilk32 false 1#32 0#32 0xfffffff8#32 (by decide)
    ⟨by decide, by decide⟩).mpr (.inr (.inr (by decide)))⟩

/-- A 32-bit loop of 2^32 - 1 iterations on one worker gets the grain 0 and does not end. -/
theorem grainsize_unusable :
    grainsize false 1#32 0#32 0xffffffff#32 = 0#32 ∧
      (∀ fuel, cilkForRoot false 1#32 0#32 fuel 0xffffffff#32 = none) ∧
      ¬ UsableGrain false 1#32 0#32 0xffffffff#32 := by
  have zero : grainsize false 1#32 0#32 0xffffffff#32 = 0#32 := by decide
  have endless : ∀ fuel, cilkForRoot false 1#32 0#32 fuel 0xffffffff#32 = none := fun fuel => by
    rw [cilkForRoot, zero]
    exact cilkForRecursive_zero_grain (by decide) fuel 0#32 0xffffffff#32 (by decide)
  refine ⟨zero, endless, fun usable => ?_⟩
  obtain ⟨fuel, events, ran⟩ := usable.ends
  rw [endless fuel] at ran
  cases ran

end CilkL
