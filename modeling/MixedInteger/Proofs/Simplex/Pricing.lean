import MixedInteger.Proofs.Simplex.Inverse

/-!
# Pricing

The reduced cost of a variable says how fast the objective of a phase changes when that variable
grows and the basic ones follow.  Basic variables have none, so between two points that agree in
all rows of the extended matrix the objective differs by the reduced costs of the nonbasic
variables alone.  The rule for the entering variable compares these costs with the tolerance, in
the direction in which a variable may move; a basic variable has no direction and never enters.
-/

open Matrix
open scoped BigOperators

namespace MixedInteger

open Arithmetic ExtendedRational

namespace Simplex

/-! ## The rule for the entering variable -/

section Rule

variable {α : Type} [Arithmetic α] {n : ℕ} {tolerance : α} {score : Fin n → α}

/-- The best score so far, and the index that has it unless it is the tolerance itself. -/
inductive Leads (tolerance : α) (score : Fin n → α) : α × Option (Fin n) → Prop where
  | nobody : Leads tolerance score (-tolerance, none)
  | leader (s : Fin n) (h : score s < -tolerance) : Leads tolerance score (score s, some s)

theorem entering_leads (tolerance : α) (score : Fin n → α)
    (htrans : ∀ a b c : α, a < b → b < c → a < c) :
    ∃ best, Leads tolerance score best ∧ entering tolerance score = best.2 := by
  refine ⟨_, ?_, rfl⟩
  refine foldl_induction (fun _ ↦ Leads tolerance score) .nobody ?_
  intro j best hbest
  dsimp only
  split_ifs with h
  · cases hbest with
    | nobody => exact .leader j h
    | leader s hs => exact .leader j (htrans _ _ _ h hs)
  · exact hbest

/-- The entering variable has a score below the negated tolerance. -/
theorem score_of_entering_eq_some (htrans : ∀ a b c : α, a < b → b < c → a < c) {s : Fin n}
    (h : entering tolerance score = some s) : score s < -tolerance := by
  obtain ⟨best, hbest, heq⟩ := entering_leads tolerance score htrans
  cases hbest with
  | nobody => rw [heq] at h; cases h
  | leader r hr =>
    rw [heq, Option.some.injEq] at h
    exact h ▸ hr

/-- None of the first `k` scores has taken the lead unless an index is recorded. -/
def Unled (tolerance : α) (score : Fin n → α) (k : ℕ) (best : α × Option (Fin n)) : Prop :=
  best.2 = none → best.1 = -tolerance ∧ ∀ j : Fin n, j.val < k → ¬ score j < -tolerance

/-- Without an entering variable, no score lies below the negated tolerance. -/
theorem score_of_entering_eq_none (h : entering tolerance score = none) (j : Fin n) :
    ¬ score j < -tolerance := by
  have hunled : Unled tolerance score n (Fin.foldl n (fun (best : α × Option (Fin n)) j ↦
      let candidate := score j
      if candidate < best.1 then (candidate, some j) else best) (-tolerance, none)) := by
    refine foldl_induction (Unled tolerance score) (fun _ ↦ ⟨rfl, by simp⟩) ?_
    intro i best hbest hnone
    dsimp only at hnone ⊢
    split_ifs at hnone ⊢ with hi
    obtain ⟨hlead, hrest⟩ := hbest hnone
    refine ⟨hlead, fun k hk ↦ ?_⟩
    rcases Nat.lt_succ_iff_lt_or_eq.1 hk with hlt | heq
    · exact hrest k hlt
    · obtain rfl : k = i := Fin.ext heq
      rwa [hlead] at hi
  exact (hunled h).2 j j.isLt

/-- No basic variable enters, whatever the state, if no product with zero is below the negated
tolerance. -/
theorem entersNonbasic_of_not_lt {m : ℕ} (p : Program α m n)
    (htrans : ∀ a b c : α, a < b → b < c → a < c) (hzero : ∀ a : α, ¬ 0 * a < -tolerance) :
    EntersNonbasic p tolerance := by
  intro state s hentering hbasic
  have h := score_of_entering_eq_some htrans hentering
  unfold Tableau.score at h
  rw [hbasic] at h
  exact hzero _ h

end Rule

variable {m n : ℕ} {p : Program ExtendedRational m n} {τ : ℚ}

/-! ## Reduced costs -/

namespace Tableau

variable {t : Tableau ExtendedRational m n} {phase : Phase}

/-- The simplex multipliers as rational numbers. -/
def rowPrices (t : Tableau ExtendedRational m n) : Fin m → ℚ :=
  t.rowCosts ᵥ* t.inverseMatrix

/-- The reduced cost of any variable, artificial ones included. -/
def reducedCost (t : Tableau ExtendedRational m n) (p : Program ExtendedRational m n)
    (phase : Phase) (v : Variable m n) : ℚ :=
  phaseCosts p phase v - (t.rowPrices ᵥ* extendedMatrix p) v

theorem multipliers_get (ht : t.Rational) (i : Fin m) :
    t.multipliers.get i = finite (t.rowPrices i) := by
  unfold multipliers
  rw [vector_get_ofFn]
  simp only [ht.cost, ht.inverse, finite_mul]
  exact sum_finite _

theorem reducedCosts_get (hp : p.Admissible) (ht : t.Rational) (phase : Phase) (j : Fin n) :
    (t.reducedCosts p phase).get j = finite (t.reducedCost p phase (.structural j)) := by
  have hcost : phaseCost p phase j = finite (phaseCosts p phase (.structural j)) :=
    variableCost_finite hp phase (.structural j)
  unfold reducedCosts
  rw [vector_get_ofFn, hcost]
  simp only [multipliers_get ht, hp.coefficient, finite_mul]
  rw [sum_finite, finite_sub]
  rfl

theorem score_eq (hp : p.Admissible) (ht : t.Rational) (phase : Phase) (j : Fin n) :
    t.score (t.reducedCosts p phase) j = finite
      ((t.standing.get (.structural j)).direction * t.reducedCost p phase (.structural j)) := by
  rw [score, reducedCosts_get hp ht, Standing.sign_eq, finite_mul]

theorem rowCosts_eq (hp : p.Admissible) (hc : t.Consistent p phase) (i : Fin m) :
    t.rowCosts i = phaseCosts p phase (t.basis.get i) := by
  rw [rowCosts, hc.cost, variableCost_finite hp, rational_finite]

/-- Basic variables have no reduced cost. -/
theorem reducedCost_basic (hp : p.Admissible) (ht : t.Exact p) (hc : t.Consistent p phase)
    (r : Fin m) : t.reducedCost p phase (t.basis.get r) = 0 := by
  have hprices : t.rowPrices ᵥ* t.basisMatrix p = t.rowCosts := by
    rw [rowPrices, vecMul_vecMul, ht.inverse_mul, vecMul_one]
  have hcolumn : (t.rowPrices ᵥ* extendedMatrix p) (t.basis.get r) =
      (t.rowPrices ᵥ* t.basisMatrix p) r := rfl
  rw [reducedCost, hcolumn, hprices, rowCosts_eq hp hc, sub_self]

/-- Between points that agree in all rows the objective differs by the reduced costs. -/
theorem cost_sub_cost (t : Tableau ExtendedRational m n) (phase : Phase) {x y : Variable m n → ℚ}
    (h : extendedMatrix p *ᵥ x = extendedMatrix p *ᵥ y) :
    phaseCosts p phase ⬝ᵥ y - phaseCosts p phase ⬝ᵥ x =
      ∑ v, t.reducedCost p phase v * (y v - x v) := by
  have hrows : (t.rowPrices ᵥ* extendedMatrix p) ⬝ᵥ (y - x) = 0 := by
    rw [← dotProduct_mulVec, mulVec_sub, h, sub_self, dotProduct_zero]
  calc
    phaseCosts p phase ⬝ᵥ y - phaseCosts p phase ⬝ᵥ x =
        phaseCosts p phase ⬝ᵥ (y - x) - (t.rowPrices ᵥ* extendedMatrix p) ⬝ᵥ (y - x) := by
      rw [dotProduct_sub, hrows, sub_zero]
    _ = (phaseCosts p phase - t.rowPrices ᵥ* extendedMatrix p) ⬝ᵥ (y - x) :=
      (sub_dotProduct _ _ _).symm
    _ = ∑ v, t.reducedCost p phase v * (y v - x v) := rfl

/-- Along the ray of a variable the objective changes at the rate of its reduced cost. -/
theorem cost_ray (hp : p.Admissible) (ht : t.Exact p) (hc : t.Consistent p phase) {s : Fin n}
    (hs : t.standing.get (.structural s) ≠ .basic) :
    phaseCosts p phase ⬝ᵥ t.ray s (t.basisColumn p s) =
      t.reducedCost p phase (.structural s) := by
  have hrows : extendedMatrix p *ᵥ 0 = extendedMatrix p *ᵥ t.ray s (t.basisColumn p s) := by
    rw [extendedMatrix_mulVec_ray_basisColumn ht, mulVec_zero]
  have h := t.cost_sub_cost phase hrows
  rw [dotProduct_zero, sub_zero] at h
  rw [h, Finset.sum_eq_single (Variable.structural s)]
  · rw [ray_entering _ (hc.not_basic_of_ne hs), Pi.zero_apply, sub_zero, mul_one]
  · intro v _ hv
    by_cases hbasic : ∃ i, t.basis.get i = v
    · obtain ⟨i, rfl⟩ := hbasic
      rw [reducedCost_basic hp ht hc, zero_mul]
    · rw [ray_of_nonbasic _ (fun i hi ↦ hbasic ⟨i, hi⟩) hv, Pi.zero_apply, sub_zero, mul_zero]
  · simp

end Tableau

/-! ## Entering in exact arithmetic -/

/-- Nothing times no direction is below a tolerance that is not negative. -/
theorem not_zero_mul_lt (hτ : 0 ≤ τ) (a : ExtendedRational) : ¬ 0 * a < -finite τ := by
  cases a with
  | finite q =>
    rw [zero_eq_finite, finite_mul, neg_finite, finite_lt, zero_mul]
    linarith
  | _ => exact Bool.false_ne_true

theorem entersNonbasic (p : Program ExtendedRational m n) (hτ : 0 ≤ τ) :
    EntersNonbasic p (finite τ) :=
  entersNonbasic_of_not_lt p (fun _ _ _ ↦ ExtendedRational.lt_trans) (not_zero_mul_lt hτ)

namespace State

variable {state : State ExtendedRational m n}

theorem score_of_entering_some (hp : p.Admissible) (hstate : state.tableau.Rational) {s : Fin n}
    (h : state.entering? p (finite τ) = some s) :
    (state.tableau.standing.get (.structural s)).direction *
      state.tableau.reducedCost p state.phase (.structural s) < -τ := by
  have hscore := score_of_entering_eq_some (fun _ _ _ ↦ ExtendedRational.lt_trans) h
  rwa [Tableau.score_eq hp hstate, neg_finite, finite_lt] at hscore

theorem score_of_entering_none (hp : p.Admissible) (hstate : state.tableau.Rational)
    (h : state.entering? p (finite τ) = none) (j : Fin n) :
    -τ ≤ (state.tableau.standing.get (.structural j)).direction *
      state.tableau.reducedCost p state.phase (.structural j) := by
  have hscore := score_of_entering_eq_none h j
  rwa [Tableau.score_eq hp hstate, neg_finite, finite_lt, not_lt] at hscore

end State

end Simplex

end MixedInteger
