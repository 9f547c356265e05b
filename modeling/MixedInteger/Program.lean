import MixedInteger.Arithmetic

/-!
# Programs

A program of `m` rows and `n` structural variables: minimise `c · x` subject to `A x = b` and
`lower ≤ x ≤ upper`, where some variables must take integral values.  Inequalities carry their
slack columns already.  The sizes are part of the type, so a row, a column and a variable of a
program are numbers below a bound that the program itself fixes.

The tree search solves many programs that differ in their bounds only; `Program.tighten` is the
one change it makes.
-/

namespace MixedInteger

/-- A mixed-integer linear program in equality form. -/
structure Program (α : Type) (m n : Nat) where
  /-- Coefficients, row by row. -/
  A : Vector (Vector α n) m
  /-- Right-hand sides. -/
  b : Vector α m
  /-- Costs, to be minimised. -/
  c : Vector α n
  /-- Lower bounds. -/
  lower : Vector α n
  /-- Upper bounds. -/
  upper : Vector α n
  /-- Which variables must be integral. -/
  integer : Vector Bool n

/-- The side of a fractional value that a branch keeps. -/
inductive Side where
  | down
  | up
  deriving DecidableEq, Repr

namespace Program

variable {α : Type} [Arithmetic α] {m n : Nat}

/-- The coefficient of variable `j` in row `i`. -/
def coefficient (p : Program α m n) (i : Fin m) (j : Fin n) : α :=
  (p.A.get i).get j

/-- Keeps the part of the program on one side of `value` for variable `k`: below it, the upper
bound becomes the floor of the value; above it, the lower bound becomes the ceiling. -/
def tighten (p : Program α m n) (k : Fin n) (value : α) : Side → Program α m n
  | .down => { p with upper := p.upper.set k (Arithmetic.floor value) k.isLt }
  | .up => { p with lower := p.lower.set k (Arithmetic.ceil value) k.isLt }

/-- The cost of a point. -/
def cost (p : Program α m n) (x : Vector α n) : α :=
  Arithmetic.sum fun j : Fin n ↦ p.c.get j * x.get j

end Program

end MixedInteger
