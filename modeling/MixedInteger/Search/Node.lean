import MixedInteger.Outcome
import MixedInteger.Program
import MixedInteger.Search.Fractional

/-!
# Nodes of the search tree

The search keeps a list of programs that wait to be solved.  A solved one is judged against the
best integral point so far: it has no point, it cannot be better, it is integral itself, or it is
split in two at a fractional value.  This module holds what one such step consumes and produces;
how a program is solved is left open, and nothing here depends on it.
-/

namespace MixedInteger

namespace Search

open Arithmetic

variable {α : Type} [Arithmetic α] {m n : Nat}

/-! ## Nodes and incumbents -/

/-- A program waiting to be solved, and the number of bounds in which it was tightened. -/
structure Node (α : Type) (m n : Nat) where
  program : Program α m n
  depth : Nat

/-- The part of a node on one side of `value` for variable `k`. -/
def Node.child (node : Node α m n) (k : Fin n) (value : α) (side : Side) : Node α m n where
  program := node.program.tighten k value side
  depth := node.depth + 1

/-- The best integral point so far and its cost, which is infinite before there is one. -/
structure Incumbent (α : Type) (n : Nat) where
  z : α
  x : Option (Vector α n)

/-- No point yet. -/
def Incumbent.none : Incumbent α n where
  z := infinity
  x := Option.none

/-- The cost of the incumbent, once it is below infinity. -/
def Incumbent.value? (incumbent : Incumbent α n) : Option α :=
  if incumbent.z < infinity then some incumbent.z else Option.none

/-! ## Verdicts -/

/-- What became of a node. -/
inductive Verdict (α : Type) (n : Nat) where
  /-- Its relaxation has no point. -/
  | infeasible
  /-- Its relaxation is unbounded, and so the search ends. -/
  | unbounded
  /-- Its relaxation costs more than the incumbent. -/
  | fathomed
  /-- Its relaxation is solved by an integral point, which may improve on the incumbent. -/
  | integral (improved : Bool)
  /-- It is split at the value of variable `k`. -/
  | branched (k : Fin n) (value : α)

/-- Judges the outcome of a relaxation against the cost of the incumbent. -/
def judge (integer : Vector Bool n) (tolerance : α) (best : α) : Outcome α n → Verdict α n
  | .infeasible => .infeasible
  | .unbounded => .unbounded
  | .optimal x z =>
    if best < z then .fathomed
    else
      match branchingIndex x integer tolerance with
      | some k => .branched k (x.get k)
      | none => .integral (decide (z < best))

/-- The incumbent after a node: an improving integral point takes its place. -/
def Incumbent.after (incumbent : Incumbent α n) (outcome : Outcome α n) :
    Verdict α n → Incumbent α n
  | .integral true =>
    match outcome with
    | .optimal x z => { z := z, x := some x }
    | _ => incumbent
  | _ => incumbent

/-- The nodes that a verdict adds. -/
def Node.children (node : Node α m n) : Verdict α n → List (Node α m n)
  | .branched k value => [node.child k value .down, node.child k value .up]
  | _ => []

/-! ## Statistics -/

/-- Counts over a search. -/
structure Statistics where
  /-- Relaxations solved. -/
  nodes : Nat
  infeasible : Nat
  fathomed : Nat
  integral : Nat
  /-- How often the incumbent was replaced. -/
  improved : Nat
  branched : Nat
  /-- The greatest number of nodes waiting at one time. -/
  peak : Nat
  deriving DecidableEq, Repr

namespace Statistics

/-- Before the first node, which already waits. -/
def start : Statistics where
  nodes := 0
  infeasible := 0
  fathomed := 0
  integral := 0
  improved := 0
  branched := 0
  peak := 1

/-- Counts one more node with its verdict, after which `waiting` nodes wait. -/
def count (s : Statistics) (verdict : Verdict α n) (waiting : Nat) : Statistics :=
  let s := { s with nodes := s.nodes + 1, peak := max s.peak waiting }
  match verdict with
  | .infeasible => { s with infeasible := s.infeasible + 1 }
  | .unbounded => s
  | .fathomed => { s with fathomed := s.fathomed + 1 }
  | .integral improved =>
    { s with
      integral := s.integral + 1
      improved := if improved then s.improved + 1 else s.improved }
  | .branched _ _ => { s with branched := s.branched + 1 }

end Statistics

/-! ## Steps -/

/-- What an observer is told about a node. -/
structure NodeEvent (α : Type) (n : Nat) where
  /-- The number of the node, counted from one in the order of solving. -/
  node : Nat
  depth : Nat
  /-- The nodes still waiting, this one and its children excluded. -/
  waiting : Nat
  /-- The cost of the relaxation, if it has one. -/
  z : Option α
  /-- The cost of the incumbent before the node. -/
  incumbent : Option α
  verdict : Verdict α n

/-- The state of a search between two nodes. -/
structure State (α : Type) (m n : Nat) where
  /-- The nodes that wait, the next one first. -/
  waiting : List (Node α m n)
  incumbent : Incumbent α n
  statistics : Statistics

namespace State

/-- The state before the first node. -/
def start (root : Program α m n) : State α m n where
  waiting := [{ program := root, depth := 0 }]
  incumbent := Incumbent.none
  statistics := Statistics.start

/-- Judges the outcome of the next node; `node` is that node and `rest` are the others. -/
def report (tolerance : α) (state : State α m n) (node : Node α m n)
    (rest : List (Node α m n)) (outcome : Outcome α n) : NodeEvent α n where
  node := state.statistics.nodes + 1
  depth := node.depth
  waiting := rest.length
  z := outcome.cost?
  incumbent := state.incumbent.value?
  verdict := judge node.program.integer tolerance state.incumbent.z outcome

/-- The state after a node: its children wait behind all others. -/
def after (state : State α m n) (node : Node α m n) (rest : List (Node α m n))
    (outcome : Outcome α n) (verdict : Verdict α n) : State α m n :=
  let waiting := rest ++ node.children verdict
  { waiting := waiting
    incumbent := state.incumbent.after outcome verdict
    statistics := state.statistics.count verdict waiting.length }

end State

end Search

end MixedInteger
