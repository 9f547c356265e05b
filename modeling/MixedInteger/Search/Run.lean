import MixedInteger.Search.Node
import MixedInteger.Simplex.Run

/-!
# Runs of the search

Nodes are solved in the order in which they began to wait, and the search ends when none waits, or
at once when a relaxation is unbounded.  The relaxations come from a parameter, so that what holds
of the search for every choice of it can be stated; it is told the number of the node, and may
answer equal programs differently.

Nothing bounds the size of the tree, so `State.run` takes the number of nodes it may spend.
-/

namespace MixedInteger

namespace Search

open Arithmetic

variable {α : Type} [Arithmetic α] {m n : Nat}

/-! ## Records -/

/-- One entry of the record of a search. -/
inductive Record (α : Type) (m n : Nat) where
  /-- An iteration in the relaxation of the current node. -/
  | iteration (event : Simplex.Event α m n)
  /-- The cost of the incumbent changes. -/
  | improved (before after : α)
  /-- A node has been judged. -/
  | node (event : NodeEvent α n)
  /-- The search ends at an unbounded relaxation. -/
  | stopped (node : Nat)
  /-- No node waits any more. -/
  | finished (nodes : Nat) (status : SolutionStatus)

/-- The records about one node: its relaxation, the change of incumbent it brings, its event. -/
def Record.ofNode (relaxation : List (Simplex.Event α m n)) (before after : α)
    (event : NodeEvent α n) : List (Record α m n) :=
  let change :=
    match event.verdict with
    | .integral true => [.improved before after]
    | _ => []
  relaxation.map .iteration ++ change ++ [.node event]

/-- The event in a record, if it is one that observers are told. -/
def Record.nodeEvent? : Record α m n → Option (NodeEvent α n)
  | .node event => some event
  | _ => none

/-! ## Whole runs -/

/-- How a search ends. -/
structure Finish (α : Type) (n : Nat) where
  outcome : Outcome α n
  statistics : Statistics

/-- The end of a search in which no node waits: the incumbent, if there is one, is the answer. -/
def State.finish (state : State α m n) : Finish α n where
  outcome :=
    match state.incumbent.x with
    | some x => .optimal x state.incumbent.z
    | none => .infeasible
  statistics := state.statistics

/-- How a program is solved without its integrality requirements, given the number of the node. -/
abbrev Relaxation (α : Type) (m n : Nat) := Nat → Program α m n → Simplex.Run α m n

/-- The records of a search, and its result unless an allowance was spent before there was one. -/
structure Run (α : Type) (m n : Nat) where
  records : List (Record α m n)
  result : Option (Except Simplex.DeadEnd (Finish α n))

/-- The search from a state, for at most `allowance` nodes. -/
def State.run (relax : Relaxation α m n) (tolerance : α) (allowance : Nat)
    (state : State α m n) : Run α m n :=
  match allowance, state.waiting with
  | _, [] =>
    let finish := state.finish
    { records := [.finished state.statistics.nodes finish.outcome.status]
      result := some (.ok finish) }
  | 0, _ :: _ => { records := [], result := none }
  | allowance + 1, node :: rest =>
    let relaxation := relax (state.statistics.nodes + 1) node.program
    match relaxation.result with
    | none => { records := relaxation.events.map .iteration, result := none }
    | some (.error deadEnd) =>
      { records := relaxation.events.map .iteration, result := some (.error deadEnd) }
    | some (.ok outcome) =>
      let event := state.report tolerance node rest outcome
      let next := state.after node rest outcome event.verdict
      let records := Record.ofNode relaxation.events state.incumbent.z next.incumbent.z event
      match event.verdict with
      | .unbounded =>
        { records := records ++ [.stopped event.node]
          result := some (.ok { outcome := .unbounded, statistics := next.statistics }) }
      | _ =>
        let following := next.run relax tolerance allowance
        { following with records := records ++ following.records }

/-- The search below a program. -/
def run (relax : Relaxation α m n) (tolerance : α) (allowance : Nat) (root : Program α m n) :
    Run α m n :=
  (State.start root).run relax tolerance allowance

end Search

end MixedInteger
