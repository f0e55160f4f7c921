/-
Module: CilkL.Runtime.CilkFor
Layer: Runtime
Purpose: The divide and conquer of `cilk_for_recursive` on the fixed-width unsigned count type, with its
  signed grain. The function splits its range, spawns itself on the lower half and jumps back to
  `tail_recurse` with the upper half, so each pass over that label is recorded, and so is each call of
  the loop body, in the order of the serial execution. The source has no bound on its passes; the
  translation takes fuel and answers `none` when the fuel does not suffice. The grain comes from
  `grainsize`, which mixes the signed worker count with the unsigned trip count.
Imports: Init
Trusted boundary: human-reviewed spec (translated from cilk-abi-cilk-for.cpp)
Main exports: CountType, CilkForEvent, grainCount, cilkForMid, cilkForRecursive, grainsize, cilkForRoot
Open obligations: none
-/

namespace CilkL

/-- The trip counts of `__cilkrts_cilk_for_32` and `__cilkrts_cilk_for_64`. -/
inductive CountType where
  | cilk32
  | cilk64
deriving DecidableEq, Repr

/-- The width of a count in bits. -/
def CountType.width : CountType → Nat
  | .cilk32 => 32
  | .cilk64 => 64

/-- What `cilk_for_recursive` does that can be seen from outside: it passes `tail_recurse` with a range,
or it calls the loop body on one. -/
inductive CilkForEvent (w : Nat) where
  | tailRecurse (low high : BitVec w)
  | body (low high : BitVec w)
deriving DecidableEq, Repr

/-- The range that an event hands to the loop body. -/
def CilkForEvent.bodyRange {w : Nat} : CilkForEvent w → Option (BitVec w × BitVec w)
  | .tailRecurse _ _ => none
  | .body low high => some (low, high)

/-- `grain` as the comparison `count > grain` reads it: the signed `int` is converted to `count_t`. -/
def grainCount {w : Nat} (grain : BitVec 32) : BitVec w :=
  grain.signExtend w

/-- `count_t mid = low + count / 2`. -/
def cilkForMid {w : Nat} (low high : BitVec w) : BitVec w :=
  low + (high - low) / 2#w

/-- `cilk_for_recursive`, in serial order. Each unit of fuel is one pass over `tail_recurse` in depth. -/
def cilkForRecursive {w : Nat} (grain : BitVec 32) :
    Nat → BitVec w → BitVec w → Option (List (CilkForEvent w))
  | 0, _, _ => none
  | fuel + 1, low, high =>
    let count := high - low
    if grainCount grain < count then
      let mid := cilkForMid low high
      -- the spawned call, then `low = mid; goto tail_recurse`
      match cilkForRecursive grain fuel low mid, cilkForRecursive grain fuel mid high with
      | some spawned, some continued => some (.tailRecurse low high :: (spawned ++ continued))
      | _, _ => none
    else
      some [.tailRecurse low high, .body low high]

/-- `grainsize`. The worker count `P` and the request are `int`; the sum and the quotient are of the
unsigned `count_t`, to which `P * 8` is converted. -/
def grainsize {w : Nat} (underPtool : Bool) (P req : BitVec 32) (count : BitVec w) : BitVec 32 :=
  if (0#32).slt req then
    req
  else if count < 1#w then
    1#32
  else if underPtool then
    1#32
  else
    let px8 := P * 8#32
    let n := (count + px8.signExtend w - 1#w) / px8.signExtend w
    if 2048#w < n then
      2048#32
    else
      -- `return (int) n`
      n.setWidth 32

/-- The loop of `cilk_for_root`, as `__cilkrts_cilk_for_32` and `__cilkrts_cilk_for_64` call it: the grain
from `grainsize`, then `cilk_for_recursive` from 0. -/
def cilkForRoot {w : Nat} (underPtool : Bool) (P grain : BitVec 32) (fuel : Nat) (count : BitVec w) :
    Option (List (CilkForEvent w)) :=
  cilkForRecursive (grainsize underPtool P grain count) fuel 0#w count

/-- The ranges passed to the loop body, in serial order, as numbers. -/
def bodyRanges {w : Nat} (events : List (CilkForEvent w)) : List (Nat × Nat) :=
  (events.filterMap CilkForEvent.bodyRange).map fun range => (range.1.toNat, range.2.toNat)

end CilkL
