import MixedInteger.Proofs.Search.Incumbent

/-!
# Answers within the bounds of the root

As long as the bounds of no program cross that an exact search takes up, every relaxed point is
within the bounds of its program, and each program lies inside the one it was split from.  So the
answer is within the bounds of the root.  Rounding makes bounds cross only when a variable that must
be integral has a fractional bound; then the search solves a program without any point within
bounds, and nothing keeps its answer near the root.
-/

open Matrix

namespace MixedInteger

open Arithmetic ExtendedRational

namespace Search

variable {m n : ℕ} {p q : Program ExtendedRational m n} {integrality : ExtendedRational}
  {state : State ExtendedRational m n}

/-- The bounds of no program cross that an exact search takes up. -/
def Uncrossed (root : Program ExtendedRational m n) (integrality : ExtendedRational) : Prop :=
  ∀ q, TakesUp root integrality q → q.Ordered

theorem Splits.within {point : Fin n → ℚ} {k : Fin n} (hq : q.Valid) (h : Splits q point k) :
    q.Within point := by
  obtain ⟨allowance, x, z, hrun, hpoint⟩ := h.solved
  exact Simplex.within_of_optimal hq hrun hpoint

/-- If no bounds cross, all programs lie inside the root. -/
theorem TakesUp.inside (hp : p.Admissible) (huncrossed : Uncrossed p integrality)
    (hq : TakesUp p integrality q) : q.Inside p := by
  refine hq.of_waiting (fun q ↦ q.Inside p) fun state hvisits node hnode ↦ ?_
  refine (forall_waiting hp (fun q ↦ q.Inside p) hp.inside ?_ hvisits node hnode).2
  intro q point k side htaken hdescends hinside hsplits
  have hvalid := hdescends.admissible.valid (huncrossed q htaken)
  exact hinside.tighten (hsplits.within hvalid) k side

/-- Integral bounds never cross. -/
theorem uncrossed_of_integralBounds (hp : p.Valid) (hbounds : p.IntegralBounds) :
    Uncrossed p integrality := by
  intro q hq
  refine hq.of_waiting (fun q ↦ q.Ordered) fun state hvisits node hnode ↦ ?_
  refine (forall_waiting hp.toAdmissible (fun q ↦ q.Ordered ∧ q.IntegralBounds)
    ⟨hp.ordered, hbounds⟩ ?_ hvisits node hnode).2.1
  rintro q point k side - hdescends ⟨hordered, hintegral⟩ hsplits
  have hwithin := hsplits.within (hdescends.admissible.valid hordered)
  exact ⟨hintegral.ordered_tighten hordered hwithin hsplits.integer side,
    hintegral.tighten k _ side⟩

/-- The incumbent is within the bounds of the root, if no bounds cross. -/
theorem found_within (hp : p.Admissible) (h : VisitsExactly p integrality state) :
    state.incumbent.Found p fun point ↦ Uncrossed p integrality → p.Within point := by
  refine found_of_visits hp _ ?_ h
  intro q allowance x z point htaken hrun hpoint huncrossed
  have hvalid := (htaken.descends hp).admissible.valid (huncrossed q htaken)
  exact (htaken.inside hp huncrossed).within (Simplex.within_of_optimal hvalid hrun hpoint)

end Search

namespace Model

open Search

/-- The point of an optimal answer is within the bounds of the model, if the bounds of no program
cross that the search takes up.  This is so if all finite bounds of variables that must be integral
are integers. -/
theorem within_of_optimal_solve {model : Model ExtendedRational}
    {p : Program ExtendedRational model.m model.n} (hvalid : model.validate = .ok p)
    {integrality : ExtendedRational} {allowance : Allowance} {summary : Summary}
    (hresult : (model.solve ⟨finite 0, integrality⟩ allowance).result = some (.ok summary))
    (hoptimal : summary.status = .optimal) :
    ∃ point : Fin model.n → ℚ,
      (model.solve ⟨finite 0, integrality⟩ allowance).after.x =
        some (List.ofFn fun j ↦ finite (point j)) ∧
      (Uncrossed p integrality → p.Within point) ∧
      (p.IntegralBounds → p.Within point) := by
  have hp := valid_of_validate hvalid
  obtain ⟨last, x, hvisits, -, hx, hafter⟩ := exists_last_of_optimal hvalid hresult hoptimal
  have hfound := found_within hp.toAdmissible hvisits
  rw [hafter]
  generalize last.incumbent = incumbent at hx hfound
  cases hfound with
  | nothing => cases hx
  | point point hwithin =>
    cases hx
    refine ⟨point, ?_, hwithin, fun hbounds ↦ ?_⟩
    · rw [answered, Vector.toList_ofFn]
    · exact hwithin (uncrossed_of_integralBounds hp hbounds)

/-- Five halves, of which the search keeps the whole ones. -/
def cutting : Model ExtendedRational :=
  ((Model.ofRows [[finite 2, finite 1]] [finite 5] [finite (-1), finite 0]).boundedBy
    [finite 0, finite 0] [finite 3, positiveInfinity]).withIntegrality [true, false]

theorem cutting_defect? : cutting.defect? = none := by
  decide

def cuttingProgram : Program ExtendedRational 1 2 :=
  cutting.program (shaped_of_defect?_eq_none cutting_defect?)

theorem cuttingProgram_integralBounds : cuttingProgram.IntegralBounds := by
  have hlower : cuttingProgram.lower.get 0 = finite 0 := by decide
  have hupper : cuttingProgram.upper.get 0 = finite 3 := by decide
  have hfree : cuttingProgram.integer.get 1 = false := by decide
  constructor
  · intro j q hj hq
    fin_cases j
    · exact ⟨0, finite.inj (hq.symm.trans hlower)⟩
    · cases hj.symm.trans hfree
  · intro j q hj hq
    fin_cases j
    · exact ⟨3, finite.inj (hq.symm.trans hupper)⟩
    · cases hj.symm.trans hfree

theorem cutting_within :
    cutting.validate = .ok cuttingProgram ∧
      (∃ summary, (cutting.solve ⟨finite 0, finite 0⟩ ⟨9, 9⟩).result = some (.ok summary) ∧
        summary.status = .optimal ∧ summary.statistics.branched = 1) ∧
      ∃ point : Fin 2 → ℚ,
        (cutting.solve ⟨finite 0, finite 0⟩ ⟨9, 9⟩).after.x =
          some (List.ofFn fun j ↦ finite (point j)) ∧
        cuttingProgram.Within point := by
  have hvalid : cutting.validate = .ok cuttingProgram := rfl
  have hresult : (cutting.solve ⟨finite 0, finite 0⟩ ⟨9, 9⟩).result =
      some (.ok ⟨.optimal, ⟨3, 1, 0, 1, 1, 1, 2⟩⟩) := by
    with_unfolding_all decide
  obtain ⟨point, hx, -, hwithin⟩ := within_of_optimal_solve hvalid hresult rfl
  exact ⟨hvalid, ⟨_, hresult, rfl, rfl⟩, point, hx, hwithin cuttingProgram_integralBounds⟩

/-- A variable that must be integral, between two bounds without an integer between them.  Below
its value at the root the bounds cross, and the relaxation answers with zero, which is outside. -/
def slanted : Model ExtendedRational :=
  ((Model.ofRows [[finite 1, finite 1]] [finite (1 / 2)] [finite (-1), finite 0]).boundedBy
    [finite (1 / 4), finite 0] [finite (3 / 4), finite (1 / 2)]).withIntegrality [true, false]

theorem slanted_defect? : slanted.defect? = none := by
  with_unfolding_all decide

def slantedProgram : Program ExtendedRational 1 2 :=
  slanted.program (shaped_of_defect?_eq_none slanted_defect?)

/-- An optimal answer may be outside the bounds of the model. -/
theorem not_within_root :
    ¬ ∀ (model : Model ExtendedRational) (p : Program ExtendedRational model.m model.n)
        (integrality : ℚ) (allowance : Allowance) (summary : Summary)
        (point : Fin model.n → ℚ),
      model.validate = .ok p → 0 ≤ integrality →
      (model.solve ⟨finite 0, finite integrality⟩ allowance).result = some (.ok summary) →
      summary.status = .optimal →
      (model.solve ⟨finite 0, finite integrality⟩ allowance).after.x =
        some (List.ofFn fun j ↦ finite (point j)) →
      p.Within point := by
  intro h
  have hwithin := h slanted slantedProgram 0 ⟨9, 9⟩ ⟨.optimal, ⟨3, 1, 0, 1, 1, 1, 2⟩⟩
    ![0, 1 / 2] (validate_of_defect?_eq_none slanted_defect?) le_rfl
    (by with_unfolding_all decide) rfl (by with_unfolding_all decide)
  have hlower := hwithin.lower (0 : Fin 2)
  revert hlower
  with_unfolding_all decide

end Model

end MixedInteger
