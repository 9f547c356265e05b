/-!
# Outcomes

The three ways in which an attempt to solve a program can end, and the status that a model shows:
one of the three, or that no attempt has been made.
-/

namespace MixedInteger

/-- What is known about a model. -/
inductive SolutionStatus where
  /-- No attempt has been made since the model was last changed. -/
  | unsolved
  | optimal
  | infeasible
  | unbounded
  deriving DecidableEq, Repr

namespace SolutionStatus

/-- The status in capitals, as reports show it. -/
def label : SolutionStatus → String
  | unsolved => "UNSOLVED"
  | optimal => "OPTIMAL"
  | infeasible => "INFEASIBLE"
  | unbounded => "UNBOUNDED"

/-- The status as a name, as structured output shows it. -/
def name : SolutionStatus → String
  | unsolved => "Unsolved"
  | optimal => "Optimal"
  | infeasible => "Infeasible"
  | unbounded => "Unbounded"

end SolutionStatus

/-- How a program in `n` variables was answered. -/
inductive Outcome (α : Type) (n : Nat) where
  /-- A point of least cost, and its cost. -/
  | optimal (x : Vector α n) (z : α)
  /-- No point satisfies rows and bounds. -/
  | infeasible
  /-- The cost falls without limit. -/
  | unbounded
  deriving DecidableEq

namespace Outcome

variable {α : Type} {n : Nat}

/-- The status that an outcome establishes. -/
def status : Outcome α n → SolutionStatus
  | optimal _ _ => .optimal
  | infeasible => .infeasible
  | unbounded => .unbounded

/-- The cost of an optimal point. -/
def cost? : Outcome α n → Option α
  | optimal _ z => some z
  | _ => none

end Outcome

end MixedInteger
