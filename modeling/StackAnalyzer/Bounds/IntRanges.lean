import StackAnalyzer.Llvm.Ir
import StackAnalyzer.Maps.EntryMap

set_option relaxedAutoImplicit false
set_option autoImplicit false

/-!
# Ranges from comparisons

The bounds that comparisons with constants give for values, and for the slots that these values are
loaded from. They are collected for a whole function, whatever the path.

## Main definitions

* `StackAnalyzer.Bounds.boundsFromPredicate` — the bounds of one comparison.
* `StackAnalyzer.Bounds.intersectRange` — bounds that are added to known ones.
* `StackAnalyzer.Bounds.computeIntRangesFromICmps` — the bounds of a function.
-/

namespace StackAnalyzer.Bounds

open CrossTU Maps Llvm
open Smt (IntRange)

/-! ## One comparison -/

/-- A lower bound. -/
def atLeast (bound : ℤ) : IntRange := { lower := bound, hasLower := true }

/-- An upper bound. -/
def atMost (bound : ℤ) : IntRange := { upper := bound, hasUpper := true }

/-- Both bounds. -/
def exactly (bound : ℤ) : IntRange :=
  { lower := bound, upper := bound, hasLower := true, hasUpper := true }

/-- `updateForSigned`: the bounds that a value has if it compares to `c` like this. -/
def updateForSigned (pred : Predicate) (valueIsOp0 : Bool) (c : ℤ) : IntRange :=
  if valueIsOp0 then
    match pred with
    | .slt => atMost (wrap64 (c - 1))
    | .sle => atMost c
    | .sgt => atLeast (wrap64 (c + 1))
    | .sge => atLeast c
    | .eq => exactly c
    | _ => {}
  else
    match pred with
    | .sgt => atMost (wrap64 (c - 1))
    | .sge => atMost c
    | .slt => atLeast (wrap64 (c + 1))
    | .sle => atLeast c
    | .eq => exactly c
    | _ => {}

/-- `updateForUnsigned`, with the unsigned constant as a `long long`. -/
def updateForUnsigned (pred : Predicate) (valueIsOp0 : Bool) (c : ℤ) : IntRange :=
  if valueIsOp0 then
    match pred with
    | .ult => atMost (wrap64 (c - 1))
    | .ule => atMost c
    | .ugt => atLeast (wrap64 (c + 1))
    | .uge => atLeast c
    | .eq => exactly c
    | _ => {}
  else
    match pred with
    | .ugt => atMost (wrap64 (c - 1))
    | .uge => atMost c
    | .ult => atLeast (wrap64 (c + 1))
    | .ule => atLeast c
    | .eq => exactly c
    | _ => {}

/-- The bounds of a value that compares to a constant like this; none for `ne`. -/
def boundsFromPredicate (pred : Predicate) (valueIsOp0 : Bool) {width : ℕ} (c : BitVec width) :
    IntRange :=
  match pred with
  | .slt | .sle | .sgt | .sge | .eq => updateForSigned pred valueIsOp0 c.toInt
  | .ult | .ule | .ugt | .uge => updateForUnsigned pred valueIsOp0 (wrap64 c.toNat)
  | .ne => {}

/-! ## Functions -/

/-- `intersectRange`: tighten known bounds. -/
def intersectRange (target incoming : IntRange) : IntRange :=
  let target :=
    if incoming.hasLower && (!target.hasLower || decide (incoming.lower > target.lower)) then
      { target with hasLower := true, lower := incoming.lower }
    else target
  if incoming.hasUpper && (!target.hasUpper || decide (incoming.upper < target.upper)) then
    { target with hasUpper := true, upper := incoming.upper }
  else target

section Functions

variable {F V B : Type*} [DecidableEq V] (mod : Module F V B)

/-- `applyConstraint`. -/
def applyConstraint (ranges : EntryMap V IntRange) (v : V) (bounds : IntRange) :
    EntryMap V IntRange :=
  ranges.assign v (intersectRange ((ranges.find v).getD {}) bounds)

/-- The comparison of a value with a constant: the value, whether it is the first operand, and the
bounds. -/
def comparedWithConstant (pred : Predicate) (op0 op1 : V) : Option (V × IntRange) :=
  match mod.value op0, mod.value op1 with
  | .constantInt _ _, .constantInt _ _ => none
  | _, .constantInt _ c => some (op0, boundsFromPredicate pred true c)
  | .constantInt _ c, _ => some (op1, boundsFromPredicate pred false c)
  | _, _ => none

/-- The body of the loop of `computeIntRangesFromICmps`. -/
def collectICmp (ranges : EntryMap V IntRange) (inst : V) : EntryMap V IntRange :=
  match mod.value inst with
  | .icmp pred op0 op1 =>
    match comparedWithConstant mod pred op0 op1 with
    | none => ranges
    | some (v, bounds) =>
      if bounds.hasLower || bounds.hasUpper then
        let ranges := applyConstraint ranges v bounds
        match mod.value v with
        | .load pointer => applyConstraint ranges pointer bounds
        | _ => ranges
      else ranges
  | _ => ranges

/-- `computeIntRangesFromICmps`. -/
def computeIntRangesFromICmps (f : F) : EntryMap V IntRange :=
  (mod.functionInstructions f).foldl (collectICmp mod) EntryMap.empty

end Functions

end StackAnalyzer.Bounds
