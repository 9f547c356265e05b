import MixedInteger.Arithmetic

/-!
# The most fractional variable

Among the variables that must be integral, the search branches on the one farthest from an
integer.  Whether a variable counts at all is decided by its distance from its floor alone, so a
value just below an integer does count; how far it is from an integer is its distance from the
nearer of floor and ceiling.
-/

namespace MixedInteger

namespace Search

open Arithmetic

variable {α : Type} [Arithmetic α]

/-- The distance of a value from its floor. -/
def aboveFloor (value : α) : α :=
  magnitude (floor value - value)

/-- The distance of a value from its ceiling. -/
def belowCeil (value : α) : α :=
  magnitude (ceil value - value)

/-- The distance of a value from the nearer of floor and ceiling. -/
def fractionality (value : α) : α :=
  lesser (aboveFloor value) (belowCeil value)

/-- The first index of greatest positive fractionality, among the flagged values whose distance
from the floor is not within the tolerance.  Values without a flag, or flags without a value, at
the end of the longer list play no part. -/
def mostFractional (values : List α) (flags : List Bool) (tolerance : α) :
    Option (Fin (values.zip flags).length) :=
  let entries := values.zip flags
  let best := Fin.foldl entries.length
    (fun best i ↦
      let (value, flag) := entries.get i
      if !flag || decide (aboveFloor value ≤ tolerance) then best
      else
        let distance := fractionality value
        if best.1 < distance then (distance, some i) else best)
    ((0 : α), none)
  best.2

/-- The most fractional entry of a point. -/
def branchingIndex {n : Nat} (x : Vector α n) (integer : Vector Bool n) (tolerance : α) :
    Option (Fin n) :=
  (mostFractional x.toList integer.toList tolerance).map (Fin.cast (by simp))

end Search

end MixedInteger
