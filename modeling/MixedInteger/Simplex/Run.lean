import MixedInteger.Outcome
import MixedInteger.Simplex.Rule

/-!
# Runs of the simplex method

A run is a sequence of states, each the head of one iteration.  `State.advance` performs one
iteration: it reports what happened and either yields the next state or the result.  Nothing
prevents the method from cycling, so `State.run` takes the number of iterations it may spend.

The first phase ends the run when the artificial variables cannot be driven to zero.  It can also
meet an improving variable whose move no bound limits; the objective of the phase being bounded,
that is a defect of the arithmetic or the tolerance, and the run fails.
-/

namespace MixedInteger

namespace Simplex

open Arithmetic

variable {α : Type} [Arithmetic α] {m n : Nat}

/-! ## Events and results -/

/-- What one iteration did.  Iterations are counted from one. -/
inductive Event (α : Type) (m n : Nat) where
  /-- The first phase ended with artificial variables that do not vanish. -/
  | infeasible (iteration : Nat) (infeasibility : α)
  /-- The first phase ended and the second begins. -/
  | secondPhase (iteration : Nat)
  /-- The second phase ended. -/
  | optimal (iteration : Nat) (z : α)
  /-- Nothing limits the entering variable in the second phase. -/
  | unbounded (iteration : Nat) (entering : Fin n)
  /-- The entering variable moved, and a basic variable left unless it reached its other bound. -/
  | pivot (iteration : Nat) (phase : Phase) (entering : Fin n) (leaving : Option (Fin m))
      (step : α)

/-- The first phase met an improving variable that nothing limits. -/
structure DeadEnd where
  iteration : Nat
  deriving DecidableEq, Repr

/-- How a run ends. -/
abbrev Result (α : Type) (n : Nat) := Except DeadEnd (Outcome α n)

/-! ## One iteration -/

/-- The head of an iteration. -/
structure State (α : Type) (m n : Nat) where
  phase : Phase
  /-- The iterations made so far. -/
  iterations : Nat
  tableau : Tableau α m n

/-- What follows an iteration. -/
inductive Step (α : Type) (m n : Nat) where
  | next (event : Event α m n) (state : State α m n)
  | stop (event : Option (Event α m n)) (result : Result α n)

namespace State

/-- The state in which every run begins. -/
def start (p : Program α m n) : State α m n where
  phase := .one
  iterations := 0
  tableau := Tableau.start p

/-- The end of a phase, reached when no variable improves its objective. -/
def endPhase (p : Program α m n) (tolerance : α) (state : State α m n) : Step α m n :=
  let iteration := state.iterations + 1
  match state.phase with
  | .one =>
    let infeasibility := state.tableau.basicObjective
    if tolerance < infeasibility then
      .stop (some (.infeasible iteration infeasibility)) (.ok .infeasible)
    else
      .next (.secondPhase iteration)
        { phase := .two, iterations := iteration, tableau := state.tableau.withCosts p }
  | .two =>
    let x := state.tableau.value.structural
    let z := p.cost x
    .stop (some (.optimal iteration z)) (.ok (.optimal x z))

/-- The move of entering variable `s`, or the end of the run if nothing limits it. -/
def enter (p : Program α m n) (tolerance : α) (state : State α m n) (s : Fin n) : Step α m n :=
  let iteration := state.iterations + 1
  let tableau := state.tableau
  let column := tableau.column p s
  let limit := tableau.limit p tolerance s column
  if infinity ≤ limit.step then
    match state.phase with
    | .one => .stop none (.error { iteration := iteration })
    | .two => .stop (some (.unbounded iteration s)) (.ok .unbounded)
  else
    let moved := tableau.move s limit.step column
    let changed :=
      match limit.leaving with
      | some r => moved.pivot p tolerance state.phase s r column
      | none => moved.flip s
    .next (.pivot iteration state.phase s limit.leaving limit.step)
      { phase := state.phase, iterations := iteration, tableau := changed }

/-- The variable that enters the basis next. -/
def entering? (p : Program α m n) (tolerance : α) (state : State α m n) : Option (Fin n) :=
  let reducedCosts := state.tableau.reducedCosts p state.phase
  entering tolerance (state.tableau.score reducedCosts)

/-- One iteration. -/
def advance (p : Program α m n) (tolerance : α) (state : State α m n) : Step α m n :=
  match state.entering? p tolerance with
  | none => state.endPhase p tolerance
  | some s => state.enter p tolerance s

end State

/-! ## Whole runs -/

/-- The events of a run, and its result unless the allowance was spent before there was one. -/
structure Run (α : Type) (m n : Nat) where
  events : List (Event α m n)
  result : Option (Result α n)

/-- The run from a state, for at most `allowance` iterations. -/
def State.run (p : Program α m n) (tolerance : α) : Nat → State α m n → Run α m n
  | 0, _ => { events := [], result := none }
  | allowance + 1, state =>
    match state.advance p tolerance with
    | .stop event result => { events := event.toList, result := some result }
    | .next event state =>
      let rest := state.run p tolerance allowance
      { rest with events := event :: rest.events }

/-- The run on a program. -/
def run (p : Program α m n) (tolerance : α) (allowance : Nat) : Run α m n :=
  (State.start p).run p tolerance allowance

end Simplex

end MixedInteger
