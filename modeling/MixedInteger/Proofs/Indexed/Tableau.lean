import MixedInteger.Proofs.Indexed.Lists
import MixedInteger.Proofs.Program.Statement

/-!
# Tableaux on lists

A tableau as one works on it in memory: the values and standings of all variables in one list each,
structural ones first, a basis of plain numbers, and lists for multipliers, reduced costs and the
pivot column that are written in place.  The numbers of rows, of structural variables and of basic
ones are all used as indices, and every use is checked.
-/

namespace MixedInteger

namespace Indexed

open Arithmetic Simplex

variable {α : Type} [Arithmetic α]

/-! ## Operations -/

/-- A tableau of lists. -/
structure Tableau (α : Type) where
  n : Nat
  x : List α
  status : List Standing
  /-- The variable that is basic in each row; row `i` has the artificial variable `n + i`. -/
  basic : List Nat
  inverse : List (List α)
  basicCost : List α
  multipliers : List α
  reducedCosts : List α
  column : List α

namespace Tableau

/-- Puts every structural variable at its starting value. -/
def startValues (model : Model α) : Option (List α × List Standing) :=
  loop model.n
    (fun lists j ↦ do
      let lower ← model.lower[j]?
      let upper ← model.upper[j]?
      let x ← write lists.1 j (if startsAtLower lower upper then lower else upper)
      let status ← write lists.2 j (if startsAtLower lower upper then .atLower else .atUpper)
      some (x, status))
    (List.replicate (model.n + model.m) 0, List.replicate (model.n + model.m) .basic)

/-- Gives every artificial variable the magnitude of its row's residual. -/
def startRows (model : Model α) (x : List α) : Option (List α × List (List α)) :=
  loop model.m
    (fun lists i ↦ do
      let row ← model.A[i]?
      let point ← slice lists.1 model.n
      let rightSide ← model.b[i]?
      let inverse ← writeEntry lists.2 i i (artificialSign (rightSide - dot row point))
      let x ← write lists.1 (model.n + i) (magnitude (rightSide - dot row point))
      some (x, inverse))
    (x, List.replicate model.m (List.replicate model.m 0))

/-- The tableau in which every run begins. -/
def start (model : Model α) : Option (Tableau α) := do
  let (x, status) ← startValues model
  let (x, inverse) ← startRows model x
  some
    { n := model.n
      x := x
      status := status
      basic := (List.range model.m).map (model.n + ·)
      inverse := inverse
      basicCost := List.replicate model.m 1
      multipliers := List.replicate model.m 0
      reducedCosts := List.replicate model.n 0
      column := List.replicate model.m 0 }

def priceRows (t : Tableau α) : Option (List α) :=
  loop t.basic.length
    (fun multipliers i ↦ do
      let multiplier ← sum t.basic.length fun k ↦ do
        let cost ← t.basicCost[k]?
        let entry ← readEntry t.inverse k i
        some (cost * entry)
      write multipliers i multiplier)
    t.multipliers

def phaseCost (model : Model α) (phase : Phase) (j : Nat) : Option α :=
  match phase with
  | .one => some 0
  | .two => model.c[j]?

def priceColumns (model : Model α) (phase : Phase) (t : Tableau α) (multipliers : List α) :
    Option (List α) :=
  loop t.n
    (fun reducedCosts j ↦ do
      let cost ← phaseCost model phase j
      let total ← sum t.basic.length fun i ↦ do
        let multiplier ← multipliers[i]?
        let coefficient ← readEntry model.A i j
        some (multiplier * coefficient)
      write reducedCosts j (cost - total))
    t.reducedCosts

/-- Computes multipliers and reduced costs. -/
def price (model : Model α) (phase : Phase) (t : Tableau α) : Option (Tableau α) := do
  let multipliers ← t.priceRows
  let reducedCosts ← t.priceColumns model phase multipliers
  some { t with multipliers := multipliers, reducedCosts := reducedCosts }

/-- The first of the first `n` variables with the least score below the negated tolerance. -/
def entering (tolerance : α) (n : Nat) (t : Tableau α) : Option (Option Nat) :=
  (loop n
    (fun best j ↦ do
      let standing ← t.status[j]?
      let cost ← t.reducedCosts[j]?
      some (if standing.sign * cost < best.1 then (standing.sign * cost, some j) else best))
    (-tolerance, none)).map Prod.snd

/-- The objective of the phase. -/
def basicObjective (t : Tableau α) : Option α :=
  (t.basicCost.zip t.basic).foldlM
    (fun total entry ↦ do
      let value ← t.x[entry.2]?
      some (total + entry.1 * value))
    emptySum

/-- The cost of a variable in the second phase. -/
def cost (model : Model α) (n j : Nat) : Option α :=
  if j < n then model.c[j]? else some 0

/-- Loads the basic costs of the second phase. -/
def loadCosts (model : Model α) (t : Tableau α) : Option (Tableau α) :=
  ((t.basicCost.zip t.basic).mapM fun entry ↦ cost model t.n entry.2).map fun basicCost ↦
    { t with basicCost := basicCost }

/-- Computes the column of variable `s` in terms of the basis. -/
def computeColumn (model : Model α) (s : Nat) (t : Tableau α) : Option (Tableau α) :=
  (loop t.basic.length
    (fun column i ↦ do
      let entry ← sum t.basic.length fun k ↦ do
        let entry ← readEntry t.inverse i k
        let coefficient ← readEntry model.A k s
        some (entry * coefficient)
      write column i entry)
    t.column).map fun column ↦ { t with column := column }

/-- The bounds of a variable. -/
def bounds (model : Model α) (n j : Nat) : Option (α × α) :=
  if j < n then do
    let lower ← model.lower[j]?
    let upper ← model.upper[j]?
    some (lower, upper)
  else some (0, infinity)

/-- A row takes over the limit when its ratio is no longer than the step so far. -/
def shorten (limit : α × Option Nat) (i : Nat) (ratio : α) : α × Option Nat :=
  if ratio ≤ limit.1 then (ratio, some i) else limit

/-- The part of a row in the ratio test. -/
def meet (tolerance : α) (limit : α × Option Nat) (i : Nat)
    (lower upper value rate opposite : α) : α × Option Nat :=
  let limit := if tolerance < opposite then shorten limit i ((value - upper) / rate) else limit
  if tolerance < rate then shorten limit i ((value - lower) / rate) else limit

/-- How far variable `s` may move, and the row that limits it. -/
def ratioTest (model : Model α) (tolerance : α) (s : Nat) (t : Tableau α) :
    Option (α × Option Nat) := do
  let standing ← t.status[s]?
  let upper ← model.upper[s]?
  let lower ← model.lower[s]?
  loop t.column.length
    (fun limit i ↦ do
      let entry ← t.column[i]?
      let j ← t.basic[i]?
      let box ← bounds model t.n j
      let value ← t.x[j]?
      some (meet tolerance limit i box.1 box.2 value (standing.sign * entry)
        (-standing.sign * entry)))
    (upper - lower, none)

/-- Moves variable `s` by `step` and lets the basic variables follow. -/
def move (s : Nat) (step : α) (t : Tableau α) : Option (Tableau α) := do
  let standing ← t.status[s]?
  let value ← t.x[s]?
  let x ← write t.x s (value + standing.sign * step)
  (loop t.basic.length
    (fun x i ↦ do
      let j ← t.basic[i]?
      let entry ← t.column[i]?
      let value ← x[j]?
      write x j (value - standing.sign * step * entry))
    x).map fun x ↦ { t with x := x }

/-- Clears the column of the inverse outside row `r`, row by row and in place. -/
def clearRows (r : Nat) (pivot : α) (t : Tableau α) : Option (List (List α)) :=
  loop t.basic.length
    (fun inverse i ↦
      if i = r then some inverse
      else do
        let multiple ← t.column[i]?
        loop t.basic.length
          (fun inverse k ↦ do
            let entry ← readEntry inverse i k
            let leading ← readEntry inverse r k
            writeEntry inverse i k (entry - multiple / pivot * leading))
          inverse)
    t.inverse

/-- Divides row `r` of the inverse by the pivot entry. -/
def scaleRow (r : Nat) (pivot : α) (t : Tableau α) (inverse : List (List α)) :
    Option (List (List α)) :=
  loop t.basic.length
    (fun inverse k ↦ do
      let entry ← readEntry inverse r k
      writeEntry inverse r k (entry / pivot))
    inverse

/-- Variable `s` takes the place of the one that is basic in row `r`. -/
def pivot (model : Model α) (tolerance : α) (phase : Phase) (s r : Nat) (t : Tableau α) :
    Option (Tableau α) := do
  let pivot ← t.column[r]?
  let inverse ← t.clearRows r pivot
  let inverse ← t.scaleRow r pivot inverse
  let status ← write t.status s .basic
  let leaving ← t.basic[r]?
  let box ← bounds model t.n leaving
  let value ← t.x[leaving]?
  let status ← write status leaving
    (Simplex.Tableau.leavingStanding tolerance box.1 box.2 value)
  let cost ← phaseCost model phase s
  let basicCost ← write t.basicCost r cost
  let basic ← write t.basic r s
  some { t with inverse := inverse, status := status, basicCost := basicCost, basic := basic }

/-- Variable `s` has reached its opposite bound. -/
def flip (s : Nat) (t : Tableau α) : Option (Tableau α) := do
  let standing ← t.status[s]?
  let status ← write t.status s (Simplex.Tableau.oppositeStanding standing)
  some { t with status := status }

end Tableau

end Indexed

end MixedInteger
