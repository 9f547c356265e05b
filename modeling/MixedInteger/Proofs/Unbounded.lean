import MixedInteger.Proofs.Program.Ray
import MixedInteger.Proofs.Relaxation
import MixedInteger.Proofs.Simplex.Escape

/-!
# Unbounded answers

With tolerance zero an unbounded answer is drawn from a column that nothing limits.  The heading
along this column keeps within all bounds and lowers the cost, and it changes only rows whose
artificial variable is still basic and moves with the column.  The program is feasible by then, so
its cost falls without limit as far as the other rows go, and the answer is true if and only if the
program has a ray along which the cost falls; the heading itself is one when the column leaves all
artificial variables alone.
-/

open Matrix
open scoped BigOperators

namespace MixedInteger

open Arithmetic ExtendedRational

namespace Simplex

variable {m n : ℕ} {p : Program ExtendedRational m n}

/-- From a feasible point the heading of an unlimited move leads as far down as one likes, within
bounds and on all rows whose artificial variable the column leaves alone. -/
theorem exists_cost_lt_of_unlimited (hp : p.Admissible) {state : State ExtendedRational m n}
    {s : Fin n} (hstate : state.Regular p) (hphase : state.phase = .two)
    (hentering : state.entering? p (finite 0) = some s)
    (hstep : infinity ≤ (state.limit p (finite 0) s).step) {x : Fin n → ℚ} (hx : p.Feasible x)
    (bound : ℚ) :
    ∃ y : Fin n → ℚ, (∀ i, state.tableau.Spares p s i → (p.matrix *ᵥ y) i = p.rightSide i) ∧
      (∀ j, p.lower.get j ≤ finite (y j)) ∧ (∀ j, finite (y j) ≤ p.upper.get j) ∧
      p.costs ⬝ᵥ y < bound := by
  have hs := entersNonbasic p le_rfl state s hentering
  have hslope := State.cost_heading_neg hp le_rfl hstate.exact hstate.consistent hentering
  rw [hphase, phaseCosts_two_dotProduct, neg_zero] at hslope
  obtain ⟨ρ, hρ, hlt⟩ := exists_add_mul_lt hslope (p.costs ⬝ᵥ x) bound
  refine ⟨x + ρ • fun j ↦ state.tableau.heading p s (.structural j), fun i hi ↦ ?_, fun j ↦ ?_,
    fun j ↦ ?_, ?_⟩
  · have hartificial := Tableau.heading_artificial hp hstate.exact.toRational
      hstate.consistent hs hi
    rw [mulVec_add, mulVec_smul, Pi.add_apply, Pi.smul_apply, Tableau.mulVec_heading hstate.exact,
      hartificial, mul_zero, neg_zero, smul_zero, add_zero, hx.rows]
  · exact Program.lower_le_add hρ (hx.lower j)
      (State.heading_falling hp hstate hentering hstep)
  · exact Program.add_le_upper hρ (hx.upper j)
      (State.heading_rising hp hstate hentering hstep)
  · rwa [dotProduct_add, dotProduct_smul, smul_eq_mul]

end Simplex

namespace Model

/-- What an unbounded answer with tolerance zero says for certain.  The cost falls without limit
within bounds and on all rows whose artificial variable the last column leaves alone.  If that is
all rows, the answer is true, and in any case it is true if and only if the cost falls along a ray
of the program. -/
theorem cost_of_unbounded {model : Model ExtendedRational}
    {p : Program ExtendedRational model.m model.n} (hvalid : model.validate = .ok p)
    {integrality : ExtendedRational} {allowance : Allowance}
    (hresult : (model.solveRelaxation ⟨finite 0, integrality⟩ allowance).result =
      some (.ok .unbounded)) :
    ∃ last s, (Simplex.heads p (finite 0) allowance.iterations).getLast? = some last ∧
      last.entering? p (finite 0) = some s ∧
      (∀ bound : ℚ, ∃ y : Fin model.n → ℚ,
        (∀ i, last.tableau.Spares p s i → (p.matrix *ᵥ y) i = p.rightSide i) ∧
        (∀ j, p.lower.get j ≤ finite (y j)) ∧ (∀ j, finite (y j) ≤ p.upper.get j) ∧
        p.costs ⬝ᵥ y < bound) ∧
      ((∀ i, last.tableau.Spares p s i) →
        ∀ bound, ∃ y, p.Feasible y ∧ p.costs ⬝ᵥ y < bound) ∧
      ((∀ bound, ∃ y, p.Feasible y ∧ p.costs ⬝ᵥ y < bound) ↔
        ∃ d, p.Ray d ∧ p.costs ⬝ᵥ d < 0) := by
  have hp := valid_of_validate hvalid
  obtain ⟨outcome, hrun, hstatus, -⟩ := exists_outcome_of_result hvalid hresult
  obtain rfl : outcome = .unbounded := by
    cases outcome with
    | unbounded => rfl
    | optimal x z => cases hstatus
    | infeasible => cases hstatus
  obtain ⟨last, s, hlast, hentering, hphase, hstep, -⟩ := Simplex.exists_unbounded_head hrun
  have hhead := Simplex.mem_heads_of_getLast? hlast
  obtain ⟨before, -, -, -, hswitch, -⟩ := Simplex.exists_switched hhead hphase
  have hfeasible := Simplex.feasible_switch hp hswitch
  have hlow := Simplex.exists_cost_lt_of_unlimited hp.toAdmissible
    (Simplex.regular_of_mem_heads hp.toAdmissible le_rfl (Simplex.separated_zero p) hhead)
    hphase hentering hstep hfeasible
  refine ⟨last, s, hlast, hentering, hlow, ?_, hp.toAdmissible.unbounded_iff_exists_ray hfeasible⟩
  intro hspares bound
  obtain ⟨y, hrows, hlower, hupper, hlt⟩ := hlow bound
  exact ⟨y, ⟨funext fun i ↦ hrows i (hspares i), hlower, hupper⟩, hlt⟩

/-- A row that forces the variable to its lower bound, without an upper bound: the second phase
takes the variable away from there, and the artificial variable with it. -/
def openPinnedRow : Model ExtendedRational :=
  (Model.ofRows [[finite (-1)]] [finite (-2)] [finite (-1)]).boundedBy [finite 2]
    [positiveInfinity]

theorem openPinnedRow_defect? : openPinnedRow.defect? = none := by
  decide

def openPinnedProgram : Program ExtendedRational 1 1 :=
  openPinnedRow.program (shaped_of_defect?_eq_none openPinnedRow_defect?)

theorem openPinnedProgram_cost {y : Fin 1 → ℚ} (hy : openPinnedProgram.Feasible y) :
    openPinnedProgram.costs ⬝ᵥ y = -2 := by
  have hcosts : openPinnedProgram.costs = openPinnedProgram.matrix 0 := by decide
  have hrightSide : openPinnedProgram.rightSide 0 = -2 := by decide
  rw [hcosts, ← hrightSide]
  exact congrFun hy.rows 0

theorem openPinnedRow_not_spared :
    openPinnedRow.validate = .ok openPinnedProgram ∧
      (openPinnedRow.solveRelaxation ⟨finite 0, finite 0⟩ ⟨4, 4⟩).result =
        some (.ok .unbounded) ∧
      ∃ last s, (Simplex.heads openPinnedProgram (finite 0) 4).getLast? = some last ∧
        last.entering? openPinnedProgram (finite 0) = some s ∧
        ¬ ∀ i, last.tableau.Spares openPinnedProgram s i := by
  have hvalid : openPinnedRow.validate = .ok openPinnedProgram := rfl
  have hresult : (openPinnedRow.solveRelaxation ⟨finite 0, finite 0⟩ ⟨4, 4⟩).result =
      some (.ok .unbounded) := by
    with_unfolding_all decide
  obtain ⟨last, s, hlast, hentering, -, htrue, -⟩ := cost_of_unbounded hvalid hresult
  refine ⟨hvalid, hresult, last, s, hlast, hentering, fun hspares ↦ ?_⟩
  obtain ⟨y, hy, hlt⟩ := htrue hspares (-2)
  exact absurd (openPinnedProgram_cost hy) hlt.ne

/-- An unbounded answer may be given to a program whose cost has a least value. -/
theorem not_cost_below_every_bound :
    ¬ ∀ (model : Model ExtendedRational) (p : Program ExtendedRational model.m model.n)
        (integrality : ExtendedRational) (allowance : Allowance),
      model.validate = .ok p →
      (model.solveRelaxation ⟨finite 0, integrality⟩ allowance).result =
        some (.ok .unbounded) →
      ∀ bound, ∃ y, p.Feasible y ∧ p.costs ⬝ᵥ y < bound := by
  intro h
  obtain ⟨y, hy, hlt⟩ := h openPinnedRow openPinnedProgram (finite 0) ⟨4, 4⟩ rfl
    (by with_unfolding_all decide) (-2)
  exact absurd (openPinnedProgram_cost hy) hlt.ne

end Model

end MixedInteger
