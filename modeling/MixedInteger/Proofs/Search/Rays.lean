import MixedInteger.Proofs.Search.Incumbent

/-!
# Unbounded nodes

A search goes beyond its first node only if the root has an optimal point.  Then the root has no ray
along which the cost falls, and neither has any program that descends from it.  So a later node that
is reported unbounded is not: its last column has moved an artificial variable that the first phase
left in the basis.  As long as columns leave these variables alone, an unbounded node is the root.
-/

open Matrix

namespace MixedInteger

open Arithmetic ExtendedRational

namespace Search

variable {m n : ℕ} {p q : Program ExtendedRational m n} {integrality : ExtendedRational}
  {state : State ExtendedRational m n}

/-- A search is at its first node, or it has ended, or the root has an optimal point. -/
theorem optimal_of_visits (h : VisitsExactly p integrality state) :
    state = State.start p ∨ 0 < state.statistics.nodes ∧
      (state.waiting = [] ∨ ∃ x z, Simplex.Yields p (finite 0) (.ok (.optimal x z))) := by
  induction h with
  | refl => exact .inl rfl
  | tail hvisits hnext ih =>
    right
    cases hnext with
    | node node rest outcome hwaiting hyields hbounded =>
      refine ⟨?_, ?_⟩
      · rw [State.next, State.after, Statistics.count_nodes]
        exact Nat.succ_pos _
      · obtain hstart | ⟨-, hended | hoptimal⟩ := ih
        · -- the first node is the root, and nothing waits behind it
          rw [hstart] at hwaiting
          cases hwaiting
          cases outcome with
          | infeasible => exact .inl rfl
          | unbounded => exact absurd rfl hbounded
          | optimal x z => exact .inr ⟨x, z, hyields⟩
        · rw [hended] at hwaiting
          cases hwaiting
        · exact .inr hoptimal

/-- What descends from a program with an optimal point has no ray along which the cost falls. -/
theorem cost_ray_nonneg_of_descends (hp : p.Valid) (hq : q.Descends p)
    {x : Vector ExtendedRational n} {z : ExtendedRational}
    (hoptimal : Simplex.Yields p (finite 0) (.ok (.optimal x z))) {d : Fin n → ℚ}
    (hd : q.Ray d) : 0 ≤ q.costs ⬝ᵥ d := by
  obtain ⟨allowance, hrun⟩ := hoptimal
  rw [hq.costs_eq]
  exact Simplex.cost_ray_nonneg_of_optimal hp hrun (hq.ray hd)

/-- The event is about an unbounded node of the given number. -/
def reportsUnbounded (number : ℕ) (event : NodeEvent ExtendedRational n) : Bool :=
  match event.verdict with
  | .unbounded => decide (event.node = number)
  | _ => false

theorem of_reportsUnbounded {number : ℕ} {event : NodeEvent ExtendedRational n}
    (h : reportsUnbounded number event = true) :
    event.node = number ∧ event.verdict = .unbounded := by
  unfold reportsUnbounded at h
  split at h
  · rename_i hverdict
    exact ⟨of_decide_eq_true h, hverdict⟩
  · cases h

end Search

namespace Model

open Search

/-- What an event about an unbounded node says for certain.  If it is about the first node, the node
is the root.  At any later node it is wrong: there is no ray along which the cost falls.  This is
excluded if the last column of the relaxation leaves all artificial variables alone. -/
theorem unbounded_event_root {model : Model ExtendedRational}
    {p : Program ExtendedRational model.m model.n} (hvalid : model.validate = .ok p)
    {integrality : ExtendedRational} {allowance : Allowance}
    {event : NodeEvent ExtendedRational model.n}
    (hevent : event ∈ (model.solve ⟨finite 0, integrality⟩ allowance).records.filterMap
      Record.nodeEvent?)
    (hunbounded : event.verdict = .unbounded) :
    ∃ q last s, TakesUp p integrality q ∧
      (Simplex.run q (finite 0) allowance.iterations).result = some (.ok .unbounded) ∧
      (Simplex.heads q (finite 0) allowance.iterations).getLast? = some last ∧
      last.entering? q (finite 0) = some s ∧
      (event.node = 1 → event.depth = 0 ∧ q = p) ∧
      (event.node ≠ 1 → ∀ d, q.Ray d → 0 ≤ q.costs ⬝ᵥ d) ∧
      ((∀ i, last.tableau.Spares q s i) → event.node = 1 ∧ event.depth = 0) := by
  have hp := valid_of_validate hvalid
  obtain ⟨later, node, rest, outcome, hvisits, hwaiting, hrun, rfl⟩ :=
    exists_report_of_solve hvalid hevent
  obtain rfl : outcome = .unbounded := judge_eq_unbounded_iff.1 hunbounded
  have htaken := TakesUp.of_cons hvisits hwaiting
  have hdescends := htaken.descends hp.toAdmissible
  obtain ⟨last, s, hlast, -, hentering, hray⟩ :=
    Simplex.exists_ray_of_unbounded hdescends.admissible hrun
  refine ⟨node.program, last, s, htaken, hrun, hlast, hentering, ?_⟩
  obtain hstart | ⟨hpositive, hended | ⟨x, z, hoptimal⟩⟩ := optimal_of_visits hvisits
  · subst hstart
    cases hwaiting
    exact ⟨fun _ ↦ ⟨rfl, rfl⟩, fun hnode ↦ absurd rfl hnode, fun _ ↦ ⟨rfl, rfl⟩⟩
  · rw [hended] at hwaiting
    cases hwaiting
  · have hlater : later.statistics.nodes + 1 ≠ 1 := by omega
    have hnone (d : Fin model.n → ℚ) (hd : node.program.Ray d) : 0 ≤ node.program.costs ⬝ᵥ d :=
      cost_ray_nonneg_of_descends hp hdescends hoptimal hd
    refine ⟨fun hfirst ↦ absurd hfirst hlater, fun _ ↦ hnone, fun hspares ↦ ?_⟩
    obtain ⟨d, hd, hcost⟩ := hray hspares
    exact absurd hcost (not_lt.2 (hnone d hd))

/-- Two variables that add up to two.  Above its relaxed value the first one starts at two, where
the row holds and its artificial variable is basic at zero; the second phase lets both variables
rise, and the artificial variable with them. -/
def drifting : Model ExtendedRational :=
  ((Model.ofRows [[finite (-1), finite (-1)]] [finite (-2)] [finite (-1), finite (-2)]).boundedBy
    [finite 0, finite 0] [positiveInfinity, finite (1 / 2)]).withIntegrality [true, false]

theorem drifting_defect? : drifting.defect? = none := by
  with_unfolding_all decide

def driftingProgram : Program ExtendedRational 1 2 :=
  drifting.program (shaped_of_defect?_eq_none drifting_defect?)

theorem drifting_root :
    (Simplex.run driftingProgram (finite 0) 9).result =
      some (.ok (.optimal #v[finite (3 / 2), finite (1 / 2)] (finite (-5 / 2)))) := by
  with_unfolding_all decide

/-- The search reports its third node unbounded. -/
theorem exists_drifting_event :
    ∃ event ∈ (drifting.solve ⟨finite 0, finite 0⟩ ⟨9, 9⟩).records.filterMap Record.nodeEvent?,
      event.node = 3 ∧ event.verdict = .unbounded := by
  have hany : ((drifting.solve ⟨finite 0, finite 0⟩ ⟨9, 9⟩).records.filterMap
      Record.nodeEvent?).any (reportsUnbounded 3) = true := by
    with_unfolding_all decide
  obtain ⟨event, hevent, hreports⟩ := List.any_eq_true.1 hany
  exact ⟨event, hevent, of_reportsUnbounded hreports⟩

theorem drifting_not_spared :
    drifting.validate = .ok driftingProgram ∧
      ∃ event ∈ (drifting.solve ⟨finite 0, finite 0⟩ ⟨9, 9⟩).records.filterMap Record.nodeEvent?,
        event.verdict = .unbounded ∧ event.node = 3 ∧
        ∃ q last s, TakesUp driftingProgram (finite 0) q ∧
          (Simplex.heads q (finite 0) 9).getLast? = some last ∧
          last.entering? q (finite 0) = some s ∧
          (∀ d, q.Ray d → 0 ≤ q.costs ⬝ᵥ d) ∧ ¬ ∀ i, last.tableau.Spares q s i := by
  have hvalid : drifting.validate = .ok driftingProgram :=
    validate_of_defect?_eq_none drifting_defect?
  obtain ⟨event, hevent, hnode, hverdict⟩ := exists_drifting_event
  obtain ⟨q, last, s, htaken, -, hlast, hentering, -, hray, hspares⟩ :=
    unbounded_event_root hvalid hevent hverdict
  refine ⟨hvalid, event, hevent, hverdict, hnode, q, last, s, htaken, hlast, hentering, ?_, ?_⟩
  · exact hray (by omega)
  · intro hall
    have hfirst := (hspares hall).1
    omega

/-- A node may be reported unbounded although the root has an optimal point. -/
theorem not_bounded_below_root :
    ¬ ∀ (model : Model ExtendedRational) (p : Program ExtendedRational model.m model.n)
        (integrality : ExtendedRational) (allowance : Allowance)
        (x : Vector ExtendedRational model.n) (z : ExtendedRational),
      model.validate = .ok p →
      (Simplex.run p (finite 0) allowance.iterations).result = some (.ok (.optimal x z)) →
      ∀ event ∈ (model.solve ⟨finite 0, integrality⟩ allowance).records.filterMap
        Record.nodeEvent?, event.verdict = .unbounded → event.node = 1 ∧ event.depth = 0 := by
  intro h
  obtain ⟨event, hevent, hnode, hverdict⟩ := exists_drifting_event
  have hfirst := (h drifting driftingProgram (finite 0) ⟨9, 9⟩ _ _
    (validate_of_defect?_eq_none drifting_defect?) drifting_root event hevent hverdict).1
  omega

end Model

end MixedInteger
