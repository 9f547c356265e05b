import MixedInteger.Simplex.Tableau

/-!
# Pivot rules

Which variable enters the basis, and how far it may move.  The entering variable has the least
score, and the first one of equals is taken; a score must lie below the negated tolerance to count
at all.  The ratio test starts with the distance between the entering variable's own bounds and
goes through the rows in order; a ratio that is no longer than the best one so far replaces it, so
the last row of equals leaves the basis, and any row is preferred to a move from bound to bound.
-/

namespace MixedInteger

namespace Simplex

open Arithmetic

variable {α : Type} [Arithmetic α] {m n : Nat}

/-! ## The entering variable -/

/-- How fast the objective changes when structural variable `j` moves in its direction. -/
def Tableau.score (t : Tableau α m n) (reducedCosts : Vector α n) (j : Fin n) : α :=
  (t.standing.get (.structural j)).sign * reducedCosts.get j

/-- The first index of least score, among the scores below the negated tolerance. -/
def entering (tolerance : α) (score : Fin n → α) : Option (Fin n) :=
  let best := Fin.foldl n
    (fun best j ↦
      let candidate := score j
      if candidate < best.1 then (candidate, some j) else best)
    (-tolerance, none)
  best.2

/-! ## The ratio test -/

/-- A step length, and the row whose basic variable limits it; without such a row the entering
variable itself reaches its opposite bound. -/
structure Limit (α : Type) (m : Nat) where
  step : α
  leaving : Option (Fin m)

/-- Row `i` takes over when its ratio is no longer than the step so far. -/
def Limit.shorten (limit : Limit α m) (i : Fin m) (ratio : α) : Limit α m :=
  if ratio ≤ limit.step then { step := ratio, leaving := some i } else limit

/-- The part of row `i` in the ratio test, where `rate` is how fast its basic variable falls: one
that rises meets its upper bound and one that falls its lower bound. -/
def Limit.meet (tolerance : α) (limit : Limit α m) (i : Fin m)
    (lower upper value rate opposite : α) : Limit α m :=
  let limit := if tolerance < opposite then limit.shorten i ((value - upper) / rate) else limit
  if tolerance < rate then limit.shorten i ((value - lower) / rate) else limit

/-- How far structural variable `s` may move before it or a basic variable meets a bound. -/
def Tableau.limit (t : Tableau α m n) (p : Program α m n) (tolerance : α) (s : Fin n)
    (column : Vector α m) : Limit α m :=
  let direction : α := (t.standing.get (.structural s)).sign
  Fin.foldl m
    (fun limit i ↦
      let v := t.basis.get i
      limit.meet tolerance i (lowerBound p v) (upperBound p v) (t.value.get v)
        (direction * column.get i) (-direction * column.get i))
    { step := p.upper.get s - p.lower.get s, leaving := none }

end Simplex

end MixedInteger
