import MixedInteger.Proofs.Simplex.Placement

/-!
# Artificial variables along a run

Every row holds exactly together with its artificial variable, so the structural part of a point
misses the right-hand side of a row by the value of that variable.  An artificial variable never
enters the basis, and it leaves the basis only at zero, whatever the tolerance.  At every head of a
run, therefore, only basic artificial variables can be different from zero, and in the first phase
the objective that the method computes from the basic variables is the sum of all artificial ones.
-/

open Matrix
open scoped BigOperators

namespace MixedInteger

open Arithmetic ExtendedRational

/-- How much a point misses the right-hand sides of all rows together. -/
def Program.totalResidual {m n : ℕ} (p : Program ExtendedRational m n) (x : Fin n → ℚ) : ℚ :=
  ∑ i, |p.rightSide i - (p.matrix *ᵥ x) i|

namespace Simplex

variable {m n : ℕ} {p : Program ExtendedRational m n} {τ : ℚ}

/-! ## Points and their artificial part -/

/-- The structural part of the current point. -/
def Tableau.solution (t : Tableau ExtendedRational m n) (j : Fin n) : ℚ :=
  t.point (.structural j)

/-- The sum of all artificial variables. -/
def Tableau.infeasibility (t : Tableau ExtendedRational m n) : ℚ :=
  ∑ i, t.point (.artificial i)

/-- A point of the program as one in all variables, with nothing left for artificial ones. -/
def extend (y : Fin n → ℚ) : Variable m n → ℚ
  | .structural j => y j
  | .artificial _ => 0

theorem extendedMatrix_mulVec_extend (y : Fin n → ℚ) :
    extendedMatrix p *ᵥ extend y = p.matrix *ᵥ y := by
  funext i
  rw [extendedMatrix_mulVec]
  simp only [extend, mul_zero, add_zero]

theorem phaseCosts_one_dotProduct (x : Variable m n → ℚ) :
    phaseCosts p .one ⬝ᵥ x = ∑ i, x (.artificial i) := by
  rw [dotProduct, sum_variable]
  simp [phaseCosts]

theorem phaseCosts_two_dotProduct (x : Variable m n → ℚ) :
    phaseCosts p .two ⬝ᵥ x = p.costs ⬝ᵥ fun j ↦ x (.structural j) := by
  rw [dotProduct, sum_variable]
  simp [phaseCosts, dotProduct]

theorem abs_startSign (i : Fin m) : |startSign p i| = 1 := by
  unfold startSign
  split_ifs <;> norm_num

namespace Tableau

variable {t : Tableau ExtendedRational m n} {phase : Phase} {s : Fin n}

/-- A row misses its right-hand side by its artificial variable. -/
theorem Exact.residual (ht : t.Exact p) (i : Fin m) :
    p.rightSide i - (p.matrix *ᵥ t.solution) i = startSign p i * t.point (.artificial i) := by
  have hrow := extendedMatrix_mulVec (p := p) t.point i
  rw [ht.rows] at hrow
  rw [hrow]
  exact add_sub_cancel_left _ _

theorem Exact.totalResidual (ht : t.Exact p) :
    p.totalResidual t.solution = ∑ i, |t.point (.artificial i)| := by
  unfold Program.totalResidual
  apply Finset.sum_congr rfl
  intro i _
  rw [ht.residual, abs_mul, abs_startSign, one_mul]

/-- A point satisfies all rows when no artificial variable is left. -/
theorem Exact.rows_iff (ht : t.Exact p) :
    p.matrix *ᵥ t.solution = p.rightSide ↔ ∀ i, t.point (.artificial i) = 0 := by
  have hsign (i : Fin m) : startSign p i ≠ 0 := by
    intro h
    have habs := abs_startSign (p := p) i
    rw [h, abs_zero] at habs
    exact zero_ne_one habs
  constructor
  · intro hrows i
    have hresidual := ht.residual i
    rw [hrows, sub_self] at hresidual
    exact (mul_eq_zero.1 hresidual.symm).resolve_left (hsign i)
  · intro hzero
    funext i
    have hresidual := ht.residual i
    rw [hzero, mul_zero] at hresidual
    exact (sub_eq_zero.1 hresidual).symm

/-! ## Artificial variables outside the basis -/

/-- Every artificial variable outside the basis is zero. -/
def Vanishing (t : Tableau ExtendedRational m n) : Prop :=
  ∀ i, t.standing.get (.artificial i) ≠ .basic → t.point (.artificial i) = 0

theorem start_vanishing (p : Program ExtendedRational m n) : (start p).Vanishing := by
  intro i hi
  simp [start, PerVariable.get] at hi

/-- An artificial variable leaves the basis at zero, as its only bound is the lower one. -/
theorem Attains.artificial_lands (hp : p.Admissible) (ht : t.Rational) (hc : t.Consistent p phase)
    (hs : t.standing.get (.structural s) ≠ .basic) {ρ : ℚ} {r : Fin m}
    (h : t.Attains p τ s (t.basisColumn p s) ρ (some r)) {i : Fin m}
    (hi : t.basis.get r = .artificial i) :
    (t.move s (finite ρ) (t.column p s)).point (.artificial i) = 0 := by
  have hlands := h.lands hp ht hc hs
  rw [hi] at hlands
  rcases hlands with hlower | hupper
  · rw [point, hlower]
    rfl
  · rw [move_value ht (column_get hp ht s)] at hupper
    cases hupper

theorem Vanishing.move (hp : p.Admissible) (ht : t.Rational) (hc : t.Consistent p phase)
    (h : t.Vanishing) (ρ : ℚ) : (t.move s (finite ρ) (t.column p s)).Vanishing := by
  intro i hi
  rw [move_standing] at hi
  rw [point, move_value_nonbasic hp ht hc ρ hi (by simp)]
  exact h i hi

theorem Vanishing.pivot (hp : p.Admissible) (ht : t.Rational) (hc : t.Consistent p phase)
    (h : t.Vanishing) (hs : t.standing.get (.structural s) ≠ .basic) {ρ : ℚ} {r : Fin m}
    (hattains : t.Attains p τ s (t.basisColumn p s) ρ (some r)) (tolerance : ExtendedRational) :
    ((t.move s (finite ρ) (t.column p s)).pivot p tolerance phase s r
      (t.column p s)).Vanishing := by
  intro i hi
  rw [pivot_standing_get] at hi
  split_ifs at hi with hleaving hentering
  · exact hattains.artificial_lands hp ht hc hs hleaving.symm
  · exact absurd rfl hi
  · exact h.move hp ht hc ρ i hi

theorem Vanishing.flip (h : t.Vanishing) (s : Fin n) : (t.flip s).Vanishing := by
  intro i hi
  rw [flip_standing_get, if_neg (by simp)] at hi
  exact h i hi

/-- The objective of the first phase is the sum of all artificial variables. -/
theorem basicObjective_eq (hp : p.Admissible) (ht : t.Rational) (hc : t.Consistent p .one)
    (h : t.Vanishing) : t.basicObjective = finite t.infeasibility := by
  unfold basicObjective infeasibility
  have hterm (i : Fin m) : t.basicCost.get i * t.value.get (t.basis.get i) =
      finite (t.point (.artificial i)) := by
    rw [ht.cost, ht.value, finite_mul, rowCosts_eq hp hc]
    congr 1
    cases hbasis : t.basis.get i with
    | artificial k =>
      rw [hc.own_row i k hbasis]
      exact one_mul _
    | structural j =>
      -- the artificial variable of the row is then basic in no row
      have hnonbasic : t.standing.get (.artificial i) ≠ .basic := by
        intro hbasic
        obtain ⟨k, hk⟩ := (hc.basic_iff _).1 hbasic
        rw [hc.own_row k i hk, hbasis] at hk
        cases hk
      rw [h i hnonbasic]
      exact zero_mul _
  simp only [hterm]
  exact sum_finite _

end Tableau

/-! ## Runs -/

theorem State.Regular.vanishing {state : State ExtendedRational m n} (h : state.Regular p) :
    state.tableau.Vanishing := fun _ hi ↦
  h.placed.artificial h.exact.toRational hi

theorem State.Continues.vanishing (hp : p.Admissible) (hτ : 0 ≤ τ)
    {state next : State ExtendedRational m n} (h : state.Continues p (finite τ) next)
    (ht : state.tableau.Rational) (hc : state.tableau.Consistent p state.phase)
    (hstate : state.tableau.Vanishing) : next.tableau.Vanishing := by
  cases h.proceeds hp hτ ht with
  | secondPhase => exact hstate
  | pivot s r ρ hentering hattains =>
    exact hstate.pivot hp ht hc (entersNonbasic p hτ state s hentering) hattains _
  | flip s ρ => exact (hstate.move hp ht hc ρ).flip s

/-- At every head of a run only basic artificial variables can be different from zero. -/
theorem vanishing_of_mem_heads (hp : p.Admissible) (hτ : 0 ≤ τ) {allowance : ℕ}
    {head : State ExtendedRational m n} (hhead : head ∈ heads p (finite τ) allowance) :
    head.tableau.Vanishing := by
  have hkept : ∀ state next : State ExtendedRational m n,
      (state.tableau.Exact p ∧ state.tableau.Consistent p state.phase ∧ state.tableau.Vanishing) →
      state.Continues p (finite τ) next →
      next.tableau.Exact p ∧ next.tableau.Consistent p next.phase ∧ next.tableau.Vanishing := by
    rintro state next ⟨hexact, hconsistent, hvanishing⟩ hnext
    exact ⟨hnext.exact hp hτ hexact, hnext.consistent (entersNonbasic p hτ) hconsistent,
      hnext.vanishing hp hτ hexact.toRational hconsistent hvanishing⟩
  exact (State.heads_induction _ hkept ⟨Tableau.start_exact hp, Tableau.start_consistent p,
    Tableau.start_vanishing p⟩ allowance head hhead).2.2

end Simplex

end MixedInteger
