import MixedInteger.Outcome
import MixedInteger.Program

/-!
# Models

A model is a program as a user states it, together with the answer of the last attempt to solve
it.  Its parts are plain lists and its sizes plain numbers, so nothing guarantees that they fit
together; `MixedInteger.Model.Validity` says when they do.
-/

namespace MixedInteger

/-- A program as stated by a user, with room for its answer. -/
structure Model (α : Type) where
  /-- The number of rows. -/
  m : Nat
  /-- The number of structural variables. -/
  n : Nat
  /-- Coefficients, row by row. -/
  A : List (List α)
  /-- Right-hand sides. -/
  b : List α
  /-- Costs, to be minimised. -/
  c : List α
  /-- Lower bounds, where minus infinity stands for none. -/
  lower : List α
  /-- Upper bounds, where infinity stands for none. -/
  upper : List α
  /-- Which variables must be integral. -/
  integer : List Bool
  /-- The solution, present only when it is optimal. -/
  x : Option (List α)
  /-- The cost of the solution, present only when it is optimal. -/
  z : Option α
  status : SolutionStatus
  deriving BEq

namespace Model

variable {α : Type} [Arithmetic α]

/-- The model of the given rows, right-hand sides and costs, in nonnegative variables that need
not be integral. -/
def ofRows (A : List (List α)) (b c : List α) : Model α where
  m := A.length
  n := c.length
  A := A
  b := b
  c := c
  lower := List.replicate c.length 0
  upper := List.replicate c.length Arithmetic.infinity
  integer := List.replicate c.length false
  x := none
  z := none
  status := .unsolved

/-- The model with other bounds. -/
def boundedBy (model : Model α) (lower upper : List α) : Model α :=
  { model with lower := lower, upper := upper }

/-- The model with other integrality requirements. -/
def withIntegrality (model : Model α) (integer : List Bool) : Model α :=
  { model with integer := integer }

/-- The number of variables that must be integral. -/
def integerCount (model : Model α) : Nat :=
  model.integer.countP (· == true)

/-- The model without its answer. -/
def cleared (model : Model α) : Model α :=
  { model with x := none, z := none, status := .unsolved }

/-- The model with the answer `outcome` in place of whatever answer it had. -/
def answered {n : Nat} (model : Model α) (outcome : Outcome α n) : Model α :=
  match outcome with
  | .optimal x z => { model with x := some x.toList, z := some z, status := .optimal }
  | .infeasible => { model with x := none, z := none, status := .infeasible }
  | .unbounded => { model with x := none, z := none, status := .unbounded }

/-- A copy without an answer in which variable `k` is kept on one side of `value`.  There is none
if the bound to be replaced does not exist. -/
def tightened? (model : Model α) (k : Nat) (value : α) : Side → Option (Model α)
  | .down =>
    if k < model.upper.length then
      some { model.cleared with upper := model.upper.set k (Arithmetic.floor value) }
    else none
  | .up =>
    if k < model.lower.length then
      some { model.cleared with lower := model.lower.set k (Arithmetic.ceil value) }
    else none

end Model

end MixedInteger
