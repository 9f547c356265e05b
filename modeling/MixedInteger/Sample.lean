import MixedInteger.Arithmetic.Binary64
import MixedInteger.Model

/-!
# Sample models

Two small models to try a solver on.
-/

namespace MixedInteger

namespace Sample

/-- A bounded linear program in two rows, with optimum `-64` at `(3, 34, 0, 6)`. -/
def boundedRows : Model Float :=
  let none : Float := Arithmetic.infinity
  (Model.ofRows [[2, 1, 1, 0], [20, 1, 0, 1]] [40, 100] [-10, -1, 0, 0]).boundedBy
    [2, 0, 0, 0] [3, none, none, none]

/-- A set packing in three rows with three integral variables, with optimum `-1`. -/
def setPacking : Model Float :=
  (Model.ofRows
      [[1, 1, 0, 1, 0, 0], [0, 1, 1, 0, 1, 0], [0.5, 0.5, 1, 1, 0, 1]]
      [1, 1, 1]
      [-1, -1, -1, 0, 0, 0]).withIntegrality
    [true, true, true, false, false, false]

end Sample

end MixedInteger
