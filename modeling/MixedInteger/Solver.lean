import MixedInteger.Model.Validity
import MixedInteger.Search.Run

/-!
# Solving models

The two ways to solve a model: as if nothing had to be integral, by one run of the simplex method,
or with its integrality requirements, by a search.  An attempt keeps everything about a model but
its answer, and when it fails it keeps the answer as well.
-/

namespace MixedInteger

/-! ## Settings -/

/-- The tolerances of a solver. -/
structure Settings (α : Type) where
  /-- For reduced costs, pivot elements and bounds. -/
  tolerance : α
  /-- For the distance of a value from its floor. -/
  integrality : α
  deriving Repr

/-- The settings of a solver that has not been told otherwise. -/
def Settings.standard : Settings Float where
  tolerance := 1e-6
  integrality := 1e-4

/-- How much work an attempt may spend: iterations in each relaxation, and nodes. -/
structure Allowance where
  iterations : Nat
  nodes : Nat
  deriving Repr

/-- More work than any machine does. -/
def Allowance.ample : Allowance where
  iterations := Nat.pow 10 18
  nodes := Nat.pow 10 18

/-! ## Attempts -/

/-- Why an attempt fails. -/
inductive Failure (α : Type) where
  /-- The model is not valid. -/
  | invalid (defect : Defect α)
  /-- The simplex method met a dead end. -/
  | deadEnd (deadEnd : Simplex.DeadEnd)
  deriving DecidableEq, Repr

/-- The wording of a failure, where `number` writes a bound. -/
def Failure.message {α : Type} (number : α → String) : Failure α → String
  | invalid defect => s!"Invalid model: {defect.message number}"
  | deadEnd e => s!"Phase 1 ratio test found no limiting bound at iteration {e.iteration}"

/-- An attempt to solve a model: its record, the model afterwards, and the result unless the
allowance was spent before there was one. -/
structure Attempt {α : Type} (model : Model α) (β : Type) where
  records : List (Search.Record α model.m model.n)
  after : Model α
  result : Option (Except (Failure α) β)

/-- What a search reports. -/
structure Summary where
  status : SolutionStatus
  statistics : Search.Statistics
  deriving DecidableEq, Repr

namespace Model

variable {α : Type} [Arithmetic α]

/-- Solves a model as if nothing had to be integral. -/
def solveRelaxation (settings : Settings α) (allowance : Allowance) (model : Model α) :
    Attempt model SolutionStatus :=
  match model.validate with
  | .error defect => { records := [], after := model, result := some (.error (.invalid defect)) }
  | .ok program =>
    let run := Simplex.run program settings.tolerance allowance.iterations
    let records := run.events.map .iteration
    match run.result with
    | none => { records := records, after := model, result := none }
    | some (.error e) =>
      { records := records, after := model, result := some (.error (.deadEnd e)) }
    | some (.ok outcome) =>
      { records := records
        after := model.answered outcome
        result := some (.ok outcome.status) }

/-- Solves a model with its integrality requirements. -/
def solve (settings : Settings α) (allowance : Allowance) (model : Model α) :
    Attempt model Summary :=
  match model.validate with
  | .error defect => { records := [], after := model, result := some (.error (.invalid defect)) }
  | .ok program =>
    let relax : Search.Relaxation α model.m model.n := fun _ node ↦
      Simplex.run node settings.tolerance allowance.iterations
    let run := Search.run relax settings.integrality allowance.nodes program
    match run.result with
    | none => { records := run.records, after := model, result := none }
    | some (.error e) =>
      { records := run.records, after := model, result := some (.error (.deadEnd e)) }
    | some (.ok finish) =>
      { records := run.records
        after := model.answered finish.outcome
        result := some (.ok
          { status := finish.outcome.status, statistics := finish.statistics }) }

end Model

end MixedInteger
