import MixedInteger.Proofs.Search.Incumbent

/-!
# No better integral point is lost

Before every step of an exact search, each integral point of the root belongs to a node that waits,
or the incumbent costs no more.  A node whose relaxation has no point covers nothing; one whose
relaxation costs more than the incumbent covers points that cost more; and the two children of a
node cover what the node does.  When no node waits any more, the incumbent costs no more than any
integral point, and without an incumbent there is none.

This needs relaxed costs to be lower bounds only, so it holds for every tolerance of integrality,
whatever the relaxed points are like, and for nodes whose bounds cross.
-/

open Matrix

namespace MixedInteger

open Arithmetic ExtendedRational

namespace Search

variable {m n : ℕ} {p : Program ExtendedRational m n} {integrality : ExtendedRational}
  {state next : State ExtendedRational m n} {y : Fin n → ℚ}

/-- A point belongs to a waiting node, or the incumbent costs no more. -/
def State.Covers (p : Program ExtendedRational m n) (state : State ExtendedRational m n)
    (y : Fin n → ℚ) : Prop :=
  (∃ node ∈ state.waiting, node.program.Feasible y) ∨
    state.incumbent.z ≤ finite (p.costs ⬝ᵥ y)

/-- The incumbent does not become more expensive. -/
theorem State.next_incumbent_le (hincumbent : state.incumbent.z ≠ undefined)
    (node : Node ExtendedRational m n) (rest : List (Node ExtendedRational m n))
    (outcome : Outcome ExtendedRational n) :
    (state.next integrality node rest outcome).incumbent.z ≤ state.incumbent.z := by
  obtain hsame | ⟨x, z, -, hlt, hnew⟩ :=
    State.next_incumbent_cases integrality state node rest outcome
  · rw [hsame]
    exact le_refl_of_defined hincumbent
  · rw [hnew]
    exact ExtendedRational.le_of_lt hlt

/-- An integral point of a node belongs to a child of the node, or the incumbent after the node
costs no more. -/
theorem covers_of_node (node : Node ExtendedRational m n)
    (hdescends : node.program.Descends p) {incumbent : Incumbent ExtendedRational n}
    (hincumbent : incumbent.z ≠ undefined) {outcome : Outcome ExtendedRational n}
    (hyields : Simplex.Yields node.program (finite 0) (.ok outcome))
    (hbounded : outcome ≠ .unbounded) (hy : node.program.Feasible y) (hintegral : p.Integral y) :
    (∃ child ∈ node.children (judge node.program.integer integrality incumbent.z outcome),
        child.program.Feasible y) ∨
      (incumbent.after outcome
        (judge node.program.integer integrality incumbent.z outcome)).z ≤
        finite (p.costs ⬝ᵥ y) := by
  obtain ⟨allowance, hrun⟩ := hyields
  cases outcome with
  | infeasible =>
    exact absurd hy (Simplex.not_feasible_of_infeasible hdescends.admissible hrun y)
  | unbounded => exact absurd rfl hbounded
  | optimal x z =>
    obtain ⟨point, hpoint, hz, hleast⟩ :=
      Simplex.exists_point_of_optimal hdescends.admissible hrun
    have hbound : z ≤ finite (p.costs ⬝ᵥ y) := by
      rw [hz, ← hdescends.costs_eq]
      exact finite_le.2 (hleast y hy)
    obtain ⟨hlt, hjudge⟩ | ⟨-, k, hk, hjudge⟩ | ⟨-, -, hjudge⟩ :=
      judge_optimal_cases node.program.integer integrality incumbent.z x z
    · -- a fathomed node costs more than the incumbent, and so do its points
      right
      rw [hjudge]
      exact ExtendedRational.le_trans (ExtendedRational.le_of_lt hlt) hbound
    · left
      obtain ⟨hinteger, -⟩ := branchingIndex_eq_some .exact hk (hpoint k)
      rw [hdescends.integer] at hinteger
      obtain ⟨i, hi⟩ := hintegral k hinteger
      obtain ⟨side, hside⟩ := hy.tighten (point k) hi
      rw [hjudge, hpoint k]
      cases side with
      | down => exact ⟨_, List.mem_cons_self, hside⟩
      | up => exact ⟨_, List.mem_cons_of_mem _ List.mem_cons_self, hside⟩
    · right
      rw [hjudge]
      by_cases himproves : z < incumbent.z
      · rw [decide_eq_true himproves]
        exact hbound
      · rw [decide_eq_false himproves]
        have hz' : z ≠ undefined := by
          rw [hz]
          exact ExtendedRational.noConfusion
        exact ExtendedRational.le_trans
          (ExtendedRational.le_of_not_lt hz' hincumbent himproves) hbound

/-- A step keeps every integral point covered. -/
theorem State.Continues.covers (hdescends : ∀ node ∈ state.waiting, node.program.Descends p)
    (hincumbent : state.incumbent.z ≠ undefined)
    (h : state.Continues (bySimplex (finite 0)) integrality next) (hintegral : p.Integral y)
    (hcovers : state.Covers p y) : next.Covers p y := by
  cases h with
  | node node rest outcome hwaiting hyields hbounded =>
    obtain ⟨other, hother, hy⟩ | hcost := hcovers
    · rw [hwaiting] at hdescends hother
      rcases List.mem_cons.1 hother with rfl | hrest
      · obtain ⟨child, hchild, hfeasible⟩ | hcost := covers_of_node other
          (hdescends other List.mem_cons_self) hincumbent hyields hbounded hy hintegral
        · exact .inl ⟨child, List.mem_append_right _ hchild, hfeasible⟩
        · exact .inr hcost
      · exact .inl ⟨other, List.mem_append_left _ hrest, hy⟩
    · exact .inr (ExtendedRational.le_trans
        (State.next_incumbent_le hincumbent node rest outcome) hcost)

/-- Every integral point of the root is covered in every state that an exact search visits. -/
theorem covers_of_visits (hp : p.Admissible) (h : VisitsExactly p integrality state)
    (hy : p.Feasible y) (hintegral : p.Integral y) : state.Covers p y := by
  induction h with
  | refl => exact .inl ⟨_, List.mem_singleton_self _, hy⟩
  | tail hvisits hnext ih =>
    exact hnext.covers (descends_of_visits hp le_rfl hvisits) (defined_of_visits hp hvisits)
      hintegral ih

end Search

namespace Model

open Search

/-- An exact search does not prune away a better integral point.  The cost of an optimal answer is
rational and at most that of every point that satisfies all rows, bounds and integrality
requirements of the model, and an infeasible answer means that there is no such point. -/
theorem integral_cost_le {model : Model ExtendedRational}
    {p : Program ExtendedRational model.m model.n} (hvalid : model.validate = .ok p)
    {integrality : ExtendedRational} {allowance : Allowance} {summary : Summary}
    (hresult : (model.solve ⟨finite 0, integrality⟩ allowance).result = some (.ok summary)) :
    (summary.status = .optimal →
      ∃ z : ℚ, (model.solve ⟨finite 0, integrality⟩ allowance).after.z = some (finite z) ∧
        ∀ y, p.Feasible y → p.Integral y → z ≤ p.costs ⬝ᵥ y) ∧
    (summary.status = .infeasible → ¬ ∃ y, p.Feasible y ∧ p.Integral y) := by
  have hp := (valid_of_validate hvalid).toAdmissible
  have hcost {last : Search.State ExtendedRational model.m model.n}
      (hvisits : VisitsExactly p integrality last) (hwaiting : last.waiting = [])
      (y : Fin model.n → ℚ) (hy : p.Feasible y) (hintegral : p.Integral y) :
      last.incumbent.z ≤ finite (p.costs ⬝ᵥ y) := by
    obtain ⟨node, hnode, -⟩ | hle := covers_of_visits hp hvisits hy hintegral
    · rw [hwaiting] at hnode
      cases hnode
    · exact hle
  have hfound {last : Search.State ExtendedRational model.m model.n}
      (hvisits : VisitsExactly p integrality last) :
      last.incumbent.Found p fun _ ↦ True :=
    found_of_visits hp _ (fun _ _ _ _ _ _ _ _ ↦ trivial) hvisits
  constructor
  · intro hoptimal
    obtain ⟨last, x, hvisits, hwaiting, hx, hafter⟩ :=
      exists_last_of_optimal hvalid hresult hoptimal
    have hle := hcost hvisits hwaiting
    have hpoint := hfound hvisits
    rw [hafter]
    generalize last.incumbent = incumbent at hx hle hpoint
    cases hpoint with
    | nothing => cases hx
    | point point =>
      exact ⟨p.costs ⬝ᵥ point, rfl, fun y hy hintegral ↦ finite_le.1 (hle y hy hintegral)⟩
  · rintro hinfeasible ⟨y, hy, hintegral⟩
    obtain ⟨last, hvisits, hwaiting, hx⟩ := exists_last_of_infeasible hvalid hresult hinfeasible
    have hle := hcost hvisits hwaiting y hy hintegral
    have hpoint := hfound hvisits
    generalize last.incumbent = incumbent at hx hle hpoint
    cases hpoint with
    | nothing => cases hle
    | point point => cases hx

/-- Two items of which one has to stay behind, although a half of it would still fit. -/
def packing : Model ExtendedRational :=
  ((Model.ofRows [[finite 2, finite 2, finite 1]] [finite 3]
      [finite (-1), finite (-1), finite 0]).boundedBy [finite 0, finite 0, finite 0]
    [finite 1, finite 1, positiveInfinity]).withIntegrality [true, true, false]

theorem packing_defect? : packing.defect? = none := by
  decide

def packingProgram : Program ExtendedRational 1 3 :=
  packing.program (shaped_of_defect?_eq_none packing_defect?)

/-- One item that two have to share equally, although it has to stay whole. -/
def sharing : Model ExtendedRational :=
  ((Model.ofRows [[finite 1, finite 1], [finite 1, finite (-1)]] [finite 1, finite 0]
      [finite 0, finite 0]).boundedBy [finite 0, finite 0] [finite 1, finite 1]).withIntegrality
    [true, true]

theorem sharing_defect? : sharing.defect? = none := by
  decide

def sharingProgram : Program ExtendedRational 2 2 :=
  sharing.program (shaped_of_defect?_eq_none sharing_defect?)

theorem packing_and_sharing_decided :
    (packing.validate = .ok packingProgram ∧
      (∃ summary, (packing.solve ⟨finite 0, finite 0⟩ ⟨20, 20⟩).result = some (.ok summary) ∧
        summary.status = .optimal ∧ summary.statistics.branched = 2) ∧
      ∀ y, packingProgram.Feasible y → packingProgram.Integral y →
        -1 ≤ packingProgram.costs ⬝ᵥ y) ∧
    sharing.validate = .ok sharingProgram ∧
      (∃ summary, (sharing.solve ⟨finite 0, finite 0⟩ ⟨20, 20⟩).result = some (.ok summary) ∧
        summary.status = .infeasible ∧ summary.statistics.branched = 1) ∧
      ¬ ∃ y, sharingProgram.Feasible y ∧ sharingProgram.Integral y := by
  have hpacking : packing.validate = .ok packingProgram := rfl
  have hpacked : (packing.solve ⟨finite 0, finite 0⟩ ⟨20, 20⟩).result =
      some (.ok ⟨.optimal, ⟨5, 1, 0, 2, 1, 2, 2⟩⟩) := by
    with_unfolding_all decide
  have hz : (packing.solve ⟨finite 0, finite 0⟩ ⟨20, 20⟩).after.z = some (finite (-1)) := by
    with_unfolding_all decide
  have hsharing : sharing.validate = .ok sharingProgram := rfl
  have hshared : (sharing.solve ⟨finite 0, finite 0⟩ ⟨20, 20⟩).result =
      some (.ok ⟨.infeasible, ⟨3, 2, 0, 0, 0, 1, 2⟩⟩) := by
    with_unfolding_all decide
  obtain ⟨z, hz', hle⟩ := (integral_cost_le hpacking hpacked).1 rfl
  obtain rfl : z = -1 := finite.inj (Option.some.inj (hz'.symm.trans hz))
  have hnone := (integral_cost_le hsharing hshared).2 rfl
  exact ⟨⟨hpacking, ⟨_, hpacked, rfl, rfl⟩, hle⟩, hsharing, ⟨_, hshared, rfl, rfl⟩, hnone⟩

end Model

end MixedInteger
