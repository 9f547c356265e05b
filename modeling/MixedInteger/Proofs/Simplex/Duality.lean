import MixedInteger.Proofs.Simplex.Artificial

/-!
# Weak duality at a final basis

When no variable may enter, every nonbasic variable has a reduced cost that is bad for the
objective in the only direction its standing allows, up to the tolerance.  The point being exact,
any feasible point differs from it in nonbasic variables alone as far as the objective goes, so the
objective of the phase is at most that of the feasible point, up to the tolerance times the
distance between the two.
-/

open Matrix
open scoped BigOperators

namespace MixedInteger

open Arithmetic ExtendedRational

namespace Simplex

variable {m n : ℕ} {p : Program ExtendedRational m n} {τ : ℚ}
  {state : State ExtendedRational m n} {y : Fin n → ℚ}

/-- The sum of the distances between two points, variable by variable. -/
def distance (x y : Fin n → ℚ) : ℚ :=
  ∑ j, |y j - x j|

namespace State.Regular

/-- A structural variable contributes to the difference at worst its way times the tolerance. -/
theorem structural_term (hp : p.Admissible) (hτ : 0 ≤ τ) (h : state.Regular p)
    (hentering : state.entering? p (finite τ) = none) (hy : p.Feasible y) (j : Fin n) :
    -(τ * |y j - state.tableau.solution j|) ≤
      state.tableau.reducedCost p state.phase (.structural j) *
        (y j - state.tableau.solution j) := by
  have ht := h.exact.toRational
  have hvalue := ht.value (.structural j)
  have hscore := score_of_entering_none hp ht hentering j
  cases hstanding : state.tableau.standing.get (.structural j) with
  | basic =>
    obtain ⟨i, hi⟩ := (h.consistent.basic_iff _).1 hstanding
    rw [← hi, Tableau.reducedCost_basic hp h.exact h.consistent, zero_mul]
    exact neg_nonpos.2 (mul_nonneg hτ (abs_nonneg _))
  | atLower =>
    have hlower := hy.lower j
    have hplaced : state.tableau.value.get (.structural j) = p.lower.get j :=
      h.placed.atLower _ hstanding
    rw [← hplaced, hvalue, finite_le] at hlower
    have hway : 0 ≤ y j - state.tableau.solution j := sub_nonneg.2 hlower
    rw [hstanding, Standing.direction, one_mul] at hscore
    rw [abs_of_nonneg hway, ← neg_mul]
    exact mul_le_mul_of_nonneg_right hscore hway
  | atUpper =>
    have hupper := hy.upper j
    have hplaced : state.tableau.value.get (.structural j) = p.upper.get j :=
      h.placed.atUpper _ hstanding
    rw [← hplaced, hvalue, finite_le] at hupper
    have hway : y j - state.tableau.solution j ≤ 0 := sub_nonpos.2 hupper
    rw [hstanding, Standing.direction, neg_one_mul, neg_le_neg_iff] at hscore
    rw [abs_of_nonpos hway, mul_neg, neg_neg]
    exact mul_le_mul_of_nonpos_right hscore hway

/-- An artificial variable contributes nothing: it is basic, or zero at both points. -/
theorem artificial_term (hp : p.Admissible) (h : state.Regular p) (i : Fin m) :
    state.tableau.reducedCost p state.phase (.artificial i) *
      (extend y (.artificial i) - state.tableau.point (.artificial i)) = 0 := by
  by_cases hbasic : state.tableau.standing.get (.artificial i) = .basic
  · obtain ⟨k, hk⟩ := (h.consistent.basic_iff _).1 hbasic
    rw [← hk, Tableau.reducedCost_basic hp h.exact h.consistent, zero_mul]
  · rw [h.vanishing i hbasic, extend, sub_zero, mul_zero]

/-- Weak duality: when no variable enters, the objective of the phase is at most that of any
feasible point, up to the tolerance times the distance. -/
theorem objective_le (hp : p.Admissible) (hτ : 0 ≤ τ) (h : state.Regular p)
    (hentering : state.entering? p (finite τ) = none) (hy : p.Feasible y) :
    phaseCosts p state.phase ⬝ᵥ state.tableau.point ≤
      phaseCosts p state.phase ⬝ᵥ extend y + τ * distance state.tableau.solution y := by
  have hrows : extendedMatrix p *ᵥ state.tableau.point = extendedMatrix p *ᵥ extend y := by
    rw [h.exact.rows, extendedMatrix_mulVec_extend, hy.rows]
  have hartificial : ∑ i, state.tableau.reducedCost p state.phase (.artificial i) *
      (extend y (.artificial i) - state.tableau.point (.artificial i)) = 0 :=
    Finset.sum_eq_zero fun i _ ↦ h.artificial_term hp i
  have hdifference : -(τ * distance state.tableau.solution y) ≤
      phaseCosts p state.phase ⬝ᵥ extend y - phaseCosts p state.phase ⬝ᵥ state.tableau.point := by
    calc
      -(τ * distance state.tableau.solution y) =
          ∑ j, -(τ * |y j - state.tableau.solution j|) := by
        rw [distance, Finset.mul_sum, Finset.sum_neg_distrib]
      _ ≤ ∑ j, state.tableau.reducedCost p state.phase (.structural j) *
          (y j - state.tableau.solution j) := by
        apply Finset.sum_le_sum
        intro j _
        exact h.structural_term hp hτ hentering hy j
      _ = ∑ v, state.tableau.reducedCost p state.phase v *
          (extend y v - state.tableau.point v) := by
        rw [sum_variable, hartificial, add_zero]
        rfl
      _ = phaseCosts p state.phase ⬝ᵥ extend y -
          phaseCosts p state.phase ⬝ᵥ state.tableau.point :=
        (state.tableau.cost_sub_cost state.phase hrows).symm
  linarith

/-- At the end of the first phase the infeasibility is a lower bound for the distance to any
feasible point, times the tolerance. -/
theorem infeasibility_le (hp : p.Admissible) (hτ : 0 ≤ τ) (h : state.Regular p)
    (hphase : state.phase = .one) (hentering : state.entering? p (finite τ) = none)
    (hy : p.Feasible y) :
    state.tableau.infeasibility ≤ τ * distance state.tableau.solution y := by
  have hobjective := h.objective_le hp hτ hentering hy
  have hnothing : ∑ i : Fin m, extend y (.artificial i) = 0 := Finset.sum_const_zero
  rw [hphase, phaseCosts_one_dotProduct, phaseCosts_one_dotProduct, hnothing, zero_add]
    at hobjective
  exact hobjective

/-- At the end of the second phase the cost is a lower bound, up to the tolerance times the
distance. -/
theorem cost_le (hp : p.Admissible) (hτ : 0 ≤ τ) (h : state.Regular p)
    (hphase : state.phase = .two) (hentering : state.entering? p (finite τ) = none)
    (hy : p.Feasible y) :
    p.costs ⬝ᵥ state.tableau.solution ≤
      p.costs ⬝ᵥ y + τ * distance state.tableau.solution y := by
  have hobjective := h.objective_le hp hτ hentering hy
  rwa [hphase, phaseCosts_two_dotProduct, phaseCosts_two_dotProduct] at hobjective

end State.Regular

end Simplex

end MixedInteger
