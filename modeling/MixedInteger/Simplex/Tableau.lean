import MixedInteger.Program

/-!
# Simplex tableaux

The working state of the bounded-variable simplex method.  To the `n` structural variables come
`m` artificial ones, one per row, whose columns make up the first basis.  A tableau holds the value
and the standing of every variable, which variable is basic in each row, the inverse of the basis
matrix, and the costs of the basic variables in the current phase.

Multipliers, reduced costs and pivot columns are functions of the tableau.  Two operations change
it: `Tableau.move` lets a variable run along its column, and `Tableau.pivot` or `Tableau.flip` then
records which variable became nonbasic.
-/

namespace MixedInteger

namespace Simplex

open Arithmetic

/-! ## Variables -/

/-- The variables of a tableau: those of the program and one artificial variable per row. -/
inductive Variable (m n : Nat) where
  | structural (j : Fin n)
  | artificial (i : Fin m)
  deriving DecidableEq, Repr

/-- A replaced entry of a vector is the new one, and all others stay. -/
theorem vector_get_set {β : Type} {k : Nat} (entries : Vector β k) (i j : Fin k) (entry : β) :
    (entries.set i entry i.isLt).get j = if j = i then entry else entries.get j := by
  change (entries.set i entry i.isLt)[j.val] = if j = i then entry else entries[j.val]
  rw [Vector.getElem_set]
  simp only [Fin.ext_iff, eq_comm]

/-- One entry per variable of a tableau. -/
structure PerVariable (β : Type) (m n : Nat) where
  structural : Vector β n
  artificial : Vector β m

namespace PerVariable

variable {β : Type} {m n : Nat}

/-- The entry of a variable. -/
def get (entries : PerVariable β m n) : Variable m n → β
  | .structural j => entries.structural.get j
  | .artificial i => entries.artificial.get i

/-- Replaces the entry of a variable. -/
def set (entries : PerVariable β m n) (v : Variable m n) (entry : β) : PerVariable β m n :=
  match v with
  | .structural j => { entries with structural := entries.structural.set j entry j.isLt }
  | .artificial i => { entries with artificial := entries.artificial.set i entry i.isLt }

theorem get_set (entries : PerVariable β m n) (v w : Variable m n) (entry : β) :
    (entries.set v entry).get w = if w = v then entry else entries.get w := by
  cases v <;> cases w <;> simp [get, set, vector_get_set]

@[simp]
theorem get_set_self (entries : PerVariable β m n) (v : Variable m n) (entry : β) :
    (entries.set v entry).get v = entry := by
  simp [get_set]

theorem get_set_of_ne (entries : PerVariable β m n) {v w : Variable m n} (h : w ≠ v)
    (entry : β) : (entries.set v entry).get w = entries.get w := by
  simp [get_set, h]

end PerVariable

/-! ## Phases and standings -/

/-- The first phase drives the artificial variables to zero, the second minimises the cost. -/
inductive Phase where
  | one
  | two
  deriving DecidableEq, Repr

/-- Where a variable stands: in the basis, or at one of its bounds. -/
inductive Standing where
  | basic
  | atLower
  | atUpper
  deriving DecidableEq, Repr

/-- The direction in which a nonbasic variable may move, and zero for a basic one. -/
def Standing.sign {α : Type} [Arithmetic α] : Standing → α
  | basic => 0
  | atLower => 1
  | atUpper => -1

/-! ## Starting points -/

variable {α : Type} [Arithmetic α] {m n : Nat}

/-- A structural variable starts at its bound of smaller magnitude, and at the upper one when
neither is smaller. -/
def startsAtLower (lower upper : α) : Bool :=
  decide (magnitude lower < magnitude upper)

/-- The starting value of structural variable `j`. -/
def startValue (p : Program α m n) (j : Fin n) : α :=
  if startsAtLower (p.lower.get j) (p.upper.get j) then p.lower.get j else p.upper.get j

/-- The standing that goes with the starting value. -/
def startStanding (p : Program α m n) (j : Fin n) : Standing :=
  if startsAtLower (p.lower.get j) (p.upper.get j) then .atLower else .atUpper

/-- What the starting values leave of the right-hand side of row `i`. -/
def residual (p : Program α m n) (x : Vector α n) (i : Fin m) : α :=
  p.b.get i - sum fun j : Fin n ↦ p.coefficient i j * x.get j

/-- The coefficient of the artificial variable of a row in that row, chosen so that the variable
can start at the magnitude of the row's residual. -/
def artificialSign (residual : α) : α :=
  if residual < 0 then -1 else 1

/-! ## Tableaux -/

/-- The working state of the simplex method. -/
structure Tableau (α : Type) (m n : Nat) where
  /-- The current point. -/
  value : PerVariable α m n
  standing : PerVariable Standing m n
  /-- The variable that is basic in each row. -/
  basis : Vector (Variable m n) m
  /-- The inverse of the matrix of basic columns. -/
  inverse : Vector (Vector α m) m
  /-- The costs of the basic variables, row by row. -/
  basicCost : Vector α m

namespace Tableau

/-- The tableau whose basis consists of the artificial variables. -/
def start (p : Program α m n) : Tableau α m n :=
  let x := Vector.ofFn (startValue p)
  let residuals := Vector.ofFn (residual p x)
  { value :=
      { structural := x
        artificial := residuals.map magnitude }
    standing :=
      { structural := Vector.ofFn (startStanding p)
        artificial := Vector.replicate m .basic }
    basis := Vector.ofFn .artificial
    inverse := Vector.ofFn fun i ↦ Vector.ofFn fun k ↦
      if k = i then artificialSign (residuals.get i) else 0
    basicCost := Vector.replicate m 1 }

/-! ## Pricing -/

/-- The simplex multiplier of each row. -/
def multipliers (t : Tableau α m n) : Vector α m :=
  Vector.ofFn fun i ↦ sum fun k : Fin m ↦ t.basicCost.get k * (t.inverse.get k).get i

/-- The cost of a structural variable in a phase. -/
def phaseCost (p : Program α m n) (phase : Phase) (j : Fin n) : α :=
  match phase with
  | .one => 0
  | .two => p.c.get j

/-- How fast the objective of the phase changes when structural variable `j` grows. -/
def reducedCosts (t : Tableau α m n) (p : Program α m n) (phase : Phase) : Vector α n :=
  let multiplier := t.multipliers
  Vector.ofFn fun j ↦
    phaseCost p phase j - sum fun i : Fin m ↦ multiplier.get i * p.coefficient i j

/-- The objective of the phase at the current point, as far as basic variables contribute to it;
in the first phase this is the infeasibility. -/
def basicObjective (t : Tableau α m n) : α :=
  sum fun i : Fin m ↦ t.basicCost.get i * t.value.get (t.basis.get i)

/-- The tableau with the basic costs of the second phase, in which artificial variables cost
nothing. -/
def withCosts (t : Tableau α m n) (p : Program α m n) : Tableau α m n :=
  { t with
    basicCost := t.basis.map fun v ↦
      match v with
      | .structural j => p.c.get j
      | .artificial _ => 0 }

/-- The column of structural variable `s` in terms of the basis. -/
def column (t : Tableau α m n) (p : Program α m n) (s : Fin n) : Vector α m :=
  Vector.ofFn fun i ↦ sum fun k : Fin m ↦ (t.inverse.get i).get k * p.coefficient k s

/-! ## Changes -/

/-- The lower bound of a variable. -/
def lowerBound (p : Program α m n) : Variable m n → α
  | .structural j => p.lower.get j
  | .artificial _ => 0

/-- The upper bound of a variable; artificial variables have none. -/
def upperBound (p : Program α m n) : Variable m n → α
  | .structural j => p.upper.get j
  | .artificial _ => infinity

/-- Moves structural variable `s` by `step` in its direction and lets the basic variables follow,
one row after the other. -/
def move (t : Tableau α m n) (s : Fin n) (step : α) (column : Vector α m) : Tableau α m n :=
  let shift := (t.standing.get (.structural s)).sign * step
  let moved := t.value.set (.structural s) (t.value.get (.structural s) + shift)
  { t with
    value := Fin.foldl m
      (fun value i ↦
        let v := t.basis.get i
        value.set v (value.get v - shift * column.get i))
      moved }

/-- The standing of a variable that leaves the basis with the given value: at a bound within the
tolerance, where the upper one takes precedence, and otherwise at the nearer one. -/
def leavingStanding (tolerance lower upper value : α) : Standing :=
  if magnitude (value - upper) < tolerance then .atUpper
  else if magnitude (value - lower) < tolerance then .atLower
  else if magnitude (value - lower) ≤ magnitude (value - upper) then .atLower
  else .atUpper

/-- The inverse after the basic column of row `r` has been replaced by `column`. -/
def eliminate (inverse : Vector (Vector α m) m) (r : Fin m) (column : Vector α m) :
    Vector (Vector α m) m :=
  Vector.ofFn fun i ↦
    if i = r then Vector.ofFn fun k ↦ (inverse.get r).get k / column.get r
    else
      let factor := column.get i / column.get r
      Vector.ofFn fun k ↦ (inverse.get i).get k - factor * (inverse.get r).get k

/-- Structural variable `s` takes the place of the variable that is basic in row `r`. -/
def pivot (t : Tableau α m n) (p : Program α m n) (tolerance : α) (phase : Phase)
    (s : Fin n) (r : Fin m) (column : Vector α m) : Tableau α m n :=
  let leaving := t.basis.get r
  let standing := leavingStanding tolerance (lowerBound p leaving) (upperBound p leaving)
    (t.value.get leaving)
  { t with
    standing := (t.standing.set (.structural s) .basic).set leaving standing
    basis := t.basis.set r (.structural s) r.isLt
    inverse := eliminate t.inverse r column
    basicCost := t.basicCost.set r (phaseCost p phase s) r.isLt }

/-- Structural variable `s` has reached its opposite bound. -/
def flip (t : Tableau α m n) (s : Fin n) : Tableau α m n :=
  let standing :=
    match t.standing.get (.structural s) with
    | .atLower => Standing.atUpper
    | _ => Standing.atLower
  { t with standing := t.standing.set (.structural s) standing }

end Tableau

end Simplex

end MixedInteger
