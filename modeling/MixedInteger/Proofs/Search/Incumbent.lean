import MixedInteger.Proofs.Search.Descent
import MixedInteger.Proofs.Search.Fractional
import MixedInteger.Proofs.Simplex.Verdicts

/-!
# Exact searches

In a search with tolerance zero every node that waits descends from the root: it differs from it in
bounds only, and these are infinite only where those of the root are.  Relaxed points are rational,
so a node is split at a rational value of a variable that must be integral.  The incumbent is a
rational point together with its cost, and inherits what all optimal points of relaxations have in
common.
-/

open Matrix

namespace MixedInteger

open Arithmetic ExtendedRational

namespace Search

variable {m n : ℕ} {p : Program ExtendedRational m n} {integrality : ExtendedRational}
  {state next : State ExtendedRational m n}

/-- The states that an exact search visits. -/
abbrev VisitsExactly (root : Program ExtendedRational m n) (integrality : ExtendedRational) :
    State ExtendedRational m n → Prop :=
  Visits root ⟨finite 0, integrality⟩

/-! ## Nodes -/

/-- The programs of the nodes that an exact search takes up to solve them. -/
def TakesUp (root : Program ExtendedRational m n) (integrality : ExtendedRational)
    (q : Program ExtendedRational m n) : Prop :=
  ∃ state node rest, VisitsExactly root integrality state ∧ state.waiting = node :: rest ∧
    node.program = q

theorem TakesUp.of_cons {node : Node ExtendedRational m n} {rest : List (Node ExtendedRational m n)}
    (h : VisitsExactly p integrality state) (hwaiting : state.waiting = node :: rest) :
    TakesUp p integrality node.program :=
  ⟨state, node, rest, h, hwaiting, rfl⟩

/-- How an exact search splits a program: it has an optimal point, and a variable that must be
integral has no integral value there. -/
structure Splits (q : Program ExtendedRational m n) (point : Fin n → ℚ) (k : Fin n) : Prop where
  solved : ∃ allowance x z, (Simplex.run q (finite 0) allowance).result =
    some (.ok (.optimal x z)) ∧ ∀ j, x.get j = finite (point j)
  integer : q.integer.get k = true
  apart : ∀ i : ℤ, point k ≠ i

/-- A program is split at the optimal point of whichever run on it ends. -/
theorem Splits.exists_optimal {q : Program ExtendedRational m n} {point : Fin n → ℚ} {k : Fin n}
    (h : Splits q point k) {outcome : Outcome ExtendedRational n}
    (hyields : Simplex.Yields q (finite 0) (.ok outcome)) :
    ∃ x z, outcome = .optimal x z ∧ ∀ j, x.get j = finite (point j) := by
  obtain ⟨allowance, x, z, hrun, hpoint⟩ := h.solved
  have hsame := hyields.unique ⟨allowance, hrun⟩
  cases hsame
  exact ⟨x, z, rfl, hpoint⟩

theorem exists_splits_of_branchingIndex {q : Program ExtendedRational m n} (hq : q.Admissible)
    {x : Vector ExtendedRational n} {z : ExtendedRational}
    (hyields : Simplex.Yields q (finite 0) (.ok (.optimal x z))) {k : Fin n}
    (hk : branchingIndex x q.integer integrality = some k) :
    ∃ point : Fin n → ℚ, (∀ j, x.get j = finite (point j)) ∧ Splits q point k := by
  obtain ⟨allowance, hrun⟩ := hyields
  obtain ⟨point, hpoint, -⟩ := Simplex.exists_point_of_optimal hq hrun
  obtain ⟨hinteger, hapart⟩ := branchingIndex_eq_some .exact hk (hpoint k)
  exact ⟨point, hpoint, ⟨allowance, x, z, hrun, hpoint⟩, hinteger, hapart⟩

/-- What passes on to both children of a node that is split holds of all nodes that ever wait. -/
theorem forall_nodes (hp : p.Admissible) (Holds : Node ExtendedRational m n → Prop)
    (hroot : Holds ⟨p, 0⟩)
    (hsplit : ∀ node point k side, TakesUp p integrality node.program → node.program.Descends p →
      Holds node → Splits node.program point k → Holds (node.child k (finite (point k)) side))
    (h : VisitsExactly p integrality state) :
    ∀ node ∈ state.waiting, node.program.Descends p ∧ Holds node := by
  refine h.forall_nodes (fun node ↦ node.program.Descends p ∧ Holds node) ?_ ?_
  · rintro visited node rest number x z k side hvisited hwaiting ⟨hdescends, hholds⟩ hyields hk
    obtain ⟨point, hpoint, hsplits⟩ :=
      exists_splits_of_branchingIndex hdescends.admissible hyields hk
    rw [hpoint k]
    exact ⟨hdescends.tighten k _ side,
      hsplit node point k side (.of_cons hvisited hwaiting) hdescends hholds hsplits⟩
  · intro node hnode
    rw [List.mem_singleton.1 hnode]
    exact ⟨hp.descends, hroot⟩

/-- What passes on to both parts of a program that is split holds of the programs of all nodes that
ever wait. -/
theorem forall_waiting (hp : p.Admissible) (Holds : Program ExtendedRational m n → Prop)
    (hroot : Holds p)
    (hsplit : ∀ q point k side, TakesUp p integrality q → q.Descends p → Holds q →
      Splits q point k → Holds (q.tighten k (finite (point k)) side))
    (h : VisitsExactly p integrality state) :
    ∀ node ∈ state.waiting, node.program.Descends p ∧ Holds node.program :=
  forall_nodes hp (fun node ↦ Holds node.program) hroot (fun node ↦ hsplit node.program) h

theorem TakesUp.of_waiting (Holds : Program ExtendedRational m n → Prop)
    (h : ∀ state, VisitsExactly p integrality state → ∀ node ∈ state.waiting, Holds node.program)
    {q : Program ExtendedRational m n} (hq : TakesUp p integrality q) : Holds q := by
  obtain ⟨state, node, rest, hvisits, hwaiting, rfl⟩ := hq
  exact h state hvisits node (State.mem_waiting hwaiting)

theorem TakesUp.descends (hp : p.Admissible) {q : Program ExtendedRational m n}
    (hq : TakesUp p integrality q) : q.Descends p :=
  Examines.descends hp le_rfl hq

/-! ## Incumbents -/

/-- There is no incumbent, or it is a rational point with a given property and its cost. -/
inductive Incumbent.Found (p : Program ExtendedRational m n) (Holds : (Fin n → ℚ) → Prop) :
    Incumbent ExtendedRational n → Prop where
  | nothing : Found p Holds .none
  | point (x : Fin n → ℚ) (hx : Holds x) :
      Found p Holds
        { z := finite (p.costs ⬝ᵥ x), x := some (Vector.ofFn fun j ↦ finite (x j)) }

theorem Incumbent.Found.defined {Holds : (Fin n → ℚ) → Prop}
    {incumbent : Incumbent ExtendedRational n} (h : incumbent.Found p Holds) :
    incumbent.z ≠ undefined := by
  cases h with
  | nothing => exact ExtendedRational.noConfusion
  | point x => exact ExtendedRational.noConfusion

/-- What the optimal points of all programs have in common, the incumbent has. -/
theorem found_of_visits (hp : p.Admissible) (Holds : (Fin n → ℚ) → Prop)
    (hsolved : ∀ q allowance x z point, TakesUp p integrality q →
      (Simplex.run q (finite 0) allowance).result = some (.ok (.optimal x z)) →
      (∀ j, x.get j = finite (point j)) → Holds point)
    (h : VisitsExactly p integrality state) : state.incumbent.Found p Holds := by
  induction h with
  | refl => exact .nothing
  | tail hvisits hnext ih =>
    rename_i visited later
    cases hnext with
    | node node rest outcome hwaiting hyields =>
      have htaken := TakesUp.of_cons hvisits hwaiting
      have hdescends := htaken.descends hp
      obtain hsame | ⟨x, z, rfl, -, hnew⟩ :=
        State.next_incumbent_cases integrality visited node rest outcome
      · rw [hsame]
        exact ih
      · obtain ⟨allowance, hrun⟩ := hyields
        obtain ⟨point, hpoint, hz, -⟩ :=
          Simplex.exists_point_of_optimal hdescends.admissible hrun
        rw [hnew, hz, hdescends.costs_eq, Simplex.vector_eq_ofFn hpoint]
        exact .point point (hsolved _ allowance x z point htaken hrun hpoint)

theorem defined_of_visits (hp : p.Admissible) (h : VisitsExactly p integrality state) :
    state.incumbent.z ≠ undefined :=
  (found_of_visits hp (fun _ ↦ True) (fun _ _ _ _ _ _ _ _ ↦ trivial) h).defined

end Search

end MixedInteger
