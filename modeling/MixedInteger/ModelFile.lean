import MixedInteger.Arithmetic.Binary64
import MixedInteger.Model

/-!
# Model files

What a model file says about a model: rows, right-hand sides and costs, and optionally bounds and
integrality requirements.  A bound may be left open, which for a lower bound means minus infinity
and for an upper one infinity.  Bounds that are not given at all are those of nonnegative
variables.
-/

namespace MixedInteger

/-- The contents of a model file. -/
structure ModelFile where
  A : List (List Float)
  b : List Float
  c : List Float
  lower : Option (List (Option Float))
  upper : Option (List (Option Float))
  integer : Option (List Bool)

namespace ModelFile

/-- The model that a file describes. -/
def toModel (file : ModelFile) : Model Float :=
  let model := Model.ofRows file.A file.b file.c
  { model with
    lower :=
      match file.lower with
      | some bounds => bounds.map (·.getD (-Arithmetic.infinity))
      | none => model.lower
    upper :=
      match file.upper with
      | some bounds => bounds.map (·.getD Arithmetic.infinity)
      | none => model.upper
    integer := file.integer.getD model.integer }

end ModelFile

end MixedInteger
