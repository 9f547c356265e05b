import Mathlib.Algebra.Module.BigOperators
import Mathlib.Data.Fintype.Sum
import Mathlib.LinearAlgebra.Matrix.DotProduct
import Mathlib.Tactic.Abel
import MixedInteger.Proofs.Program.Rational

/-!
# Rays

A ray of a program is a direction in which a feasible point can move without end: no row changes,
and no variable heads for a bound it has.  The cost of a feasible program falls without limit if
and only if it falls along some ray.  One direction moves along the ray.  The other one is a
theorem of the alternative: without such a ray the costs are a combination of rows and bounds that
limits the cost from below.
-/

open Matrix
open scoped BigOperators

namespace MixedInteger

open Arithmetic ExtendedRational

/-! ## A theorem of the alternative -/

section Alternative

variable {ι : Type} [DecidableEq ι] {n : ℕ} {s : Finset ι} {form : ι → Fin n → ℚ} {k : ι}

/-- A combination with one more form, which gets the weight `w`. -/
theorem sum_insert_update (hk : k ∉ s) (weight : ι → ℚ) (w : ℚ) :
    ∑ i ∈ insert k s, Function.update weight k w i • form i =
      w • form k + ∑ i ∈ s, weight i • form i := by
  rw [Finset.sum_insert hk, Function.update_self]
  congr 1
  apply Finset.sum_congr rfl
  intro i hi
  rw [Function.update_of_ne (ne_of_mem_of_not_mem hi hk)]

theorem update_nonneg {weight : ι → ℚ} (hweight : ∀ i, 0 ≤ weight i) {w : ℚ} (hw : 0 ≤ w)
    (i : ι) : 0 ≤ Function.update weight k w i := by
  by_cases hi : i = k
  · rw [hi, Function.update_self]
    exact hw
  · rw [Function.update_of_ne hi]
    exact hweight i

/-- Shearing a form along `z` is shearing the argument along the other form. -/
theorem shear_dotProduct (v w x z : Fin n → ℚ) :
    (v + (v ⬝ᵥ z) • w) ⬝ᵥ x = v ⬝ᵥ (x + (w ⬝ᵥ x) • z) := by
  calc
    (v + (v ⬝ᵥ z) • w) ⬝ᵥ x = v ⬝ᵥ x + (v ⬝ᵥ z) * (w ⬝ᵥ x) := by
      rw [add_dotProduct, smul_dotProduct, smul_eq_mul]
    _ = v ⬝ᵥ x + (w ⬝ᵥ x) * (v ⬝ᵥ z) := by rw [mul_comm (v ⬝ᵥ z)]
    _ = v ⬝ᵥ (x + (w ⬝ᵥ x) • z) := by
      rw [dotProduct_add, dotProduct_smul, smul_eq_mul]

/-- If a form is needed to keep `c` from being negative, it is `-1` at some point where the others
are nonnegative and `c` is negative. -/
theorem exists_needed_point {c : Fin n → ℚ}
    (h : ∀ x, (∀ i ∈ insert k s, 0 ≤ form i ⬝ᵥ x) → 0 ≤ c ⬝ᵥ x)
    (hneeded : ¬ ∀ x, (∀ i ∈ s, 0 ≤ form i ⬝ᵥ x) → 0 ≤ c ⬝ᵥ x) :
    ∃ z, (∀ i ∈ s, 0 ≤ form i ⬝ᵥ z) ∧ form k ⬝ᵥ z = -1 ∧ c ⬝ᵥ z < 0 := by
  simp only [not_forall, not_le] at hneeded
  obtain ⟨z, hz, hcz⟩ := hneeded
  have hkz : form k ⬝ᵥ z < 0 := by
    by_contra hnonneg
    have hall : ∀ i ∈ insert k s, 0 ≤ form i ⬝ᵥ z :=
      (Finset.forall_mem_insert _ _ _).2 ⟨not_lt.1 hnonneg, hz⟩
    exact absurd (h z hall) (not_le.2 hcz)
  have hscale : 0 < -(form k ⬝ᵥ z)⁻¹ := neg_pos.2 (inv_lt_zero.2 hkz)
  refine ⟨-(form k ⬝ᵥ z)⁻¹ • z, fun i hi ↦ ?_, ?_, ?_⟩
  · rw [dotProduct_smul]
    exact mul_nonneg hscale.le (hz i hi)
  · rw [dotProduct_smul, smul_eq_mul, neg_mul, inv_mul_cancel₀ hkz.ne]
  · rw [dotProduct_smul]
    exact mul_neg_of_pos_of_neg hscale hcz

/-- A linear form that is nonnegative wherever finitely many others are is a nonnegative
combination of them. -/
theorem exists_nonneg_combination (s : Finset ι) (form : ι → Fin n → ℚ) (c : Fin n → ℚ)
    (h : ∀ x, (∀ i ∈ s, 0 ≤ form i ⬝ᵥ x) → 0 ≤ c ⬝ᵥ x) :
    ∃ weight : ι → ℚ, (∀ i, 0 ≤ weight i) ∧ c = ∑ i ∈ s, weight i • form i := by
  induction s using Finset.induction_on generalizing form c with
  | empty =>
    refine ⟨fun _ ↦ 0, fun _ ↦ le_rfl, ?_⟩
    have hneg := h (-c) (by simp)
    rw [dotProduct_neg, neg_nonneg] at hneg
    rw [Finset.sum_empty]
    exact dotProduct_self_eq_zero.1
      (le_antisymm hneg (Finset.sum_nonneg fun j _ ↦ mul_self_nonneg (c j)))
  | insert k s hk ih =>
    by_cases hrest : ∀ x, (∀ i ∈ s, 0 ≤ form i ⬝ᵥ x) → 0 ≤ c ⬝ᵥ x
    · -- the new form is not needed
      obtain ⟨weight, hweight, hc⟩ := ih form c hrest
      refine ⟨Function.update weight k 0, update_nonneg hweight le_rfl, ?_⟩
      rw [sum_insert_update hk, zero_smul, zero_add, hc]
    · -- at some point the new form alone is negative; shear along it, so that the form vanishes
      obtain ⟨z, hz, hkz, hcz⟩ := exists_needed_point h hrest
      have hsheared : ∀ x, (∀ i ∈ s, 0 ≤ (form i + (form i ⬝ᵥ z) • form k) ⬝ᵥ x) →
          0 ≤ (c + (c ⬝ᵥ z) • form k) ⬝ᵥ x := by
        intro x hx
        rw [shear_dotProduct]
        refine h _ ((Finset.forall_mem_insert _ _ _).2 ⟨?_, fun i hi ↦ ?_⟩)
        · rw [dotProduct_add, dotProduct_smul, hkz, smul_eq_mul, mul_neg_one, add_neg_cancel]
        · rw [← shear_dotProduct]
          exact hx i hi
      obtain ⟨weight, hweight, hc⟩ := ih _ _ hsheared
      have hlast : 0 ≤ ∑ i ∈ s, weight i * (form i ⬝ᵥ z) - c ⬝ᵥ z := by
        have hsum : 0 ≤ ∑ i ∈ s, weight i * (form i ⬝ᵥ z) :=
          Finset.sum_nonneg fun i hi ↦ mul_nonneg (hweight i) (hz i hi)
        linarith
      refine ⟨Function.update weight k (∑ i ∈ s, weight i * (form i ⬝ᵥ z) - c ⬝ᵥ z),
        update_nonneg hweight hlast, ?_⟩
      rw [sum_insert_update hk]
      calc
        c = c + (c ⬝ᵥ z) • form k - (c ⬝ᵥ z) • form k := (add_sub_cancel_right _ _).symm
        _ = ∑ i ∈ s, weight i • (form i + (form i ⬝ᵥ z) • form k) - (c ⬝ᵥ z) • form k := by
          rw [hc]
        _ = (∑ i ∈ s, weight i * (form i ⬝ᵥ z) - c ⬝ᵥ z) • form k +
            ∑ i ∈ s, weight i • form i := by
          simp only [smul_add, smul_smul]
          rw [Finset.sum_add_distrib, ← Finset.sum_smul, sub_smul]
          abel

end Alternative

namespace Program

variable {m n : ℕ} {p : Program ExtendedRational m n} {d y : Fin n → ℚ}

/-! ## Rays of a program -/

/-- A direction in which no row changes and no variable heads for a bound. -/
structure Ray (p : Program ExtendedRational m n) (d : Fin n → ℚ) : Prop where
  rows : p.matrix *ᵥ d = 0
  rising : ∀ j, 0 < d j → p.upper.get j = positiveInfinity
  falling : ∀ j, d j < 0 → p.lower.get j = negativeInfinity

theorem lower_le_add {lower : ExtendedRational} {x a ρ : ℚ} (hρ : 0 ≤ ρ) (hx : lower ≤ finite x)
    (hfalling : a < 0 → lower = negativeInfinity) : lower ≤ finite (x + ρ * a) := by
  by_cases ha : a < 0
  · rw [hfalling ha]
    exact negativeInfinity_le_finite _
  · refine ExtendedRational.le_trans hx (finite_le.2 ?_)
    exact le_add_of_nonneg_right (mul_nonneg hρ (not_lt.1 ha))

theorem add_le_upper {upper : ExtendedRational} {x a ρ : ℚ} (hρ : 0 ≤ ρ) (hx : finite x ≤ upper)
    (hrising : 0 < a → upper = positiveInfinity) : finite (x + ρ * a) ≤ upper := by
  by_cases ha : 0 < a
  · rw [hrising ha]
    exact finite_le_infinity _
  · refine ExtendedRational.le_trans (finite_le.2 ?_) hx
    exact add_le_of_nonpos_right (mul_nonpos_of_nonneg_of_nonpos hρ (not_lt.1 ha))

theorem Ray.feasible_add (hd : p.Ray d) (hy : p.Feasible y) {ρ : ℚ} (hρ : 0 ≤ ρ) :
    p.Feasible (y + ρ • d) where
  rows := by rw [mulVec_add, mulVec_smul, hd.rows, smul_zero, add_zero, hy.rows]
  lower j := lower_le_add hρ (hy.lower j) (hd.falling j)
  upper j := add_le_upper hρ (hy.upper j) (hd.rising j)

/-- Along a ray on which it falls, the cost of feasible points falls without limit. -/
theorem Ray.exists_cost_lt (hd : p.Ray d) (hcost : p.costs ⬝ᵥ d < 0) (hy : p.Feasible y)
    (bound : ℚ) : ∃ x, p.Feasible x ∧ p.costs ⬝ᵥ x < bound := by
  obtain ⟨ρ, hρ, hlt⟩ := exists_add_mul_lt hcost (p.costs ⬝ᵥ y) bound
  refine ⟨y + ρ • d, hd.feasible_add hy hρ, ?_⟩
  rwa [dotProduct_add, dotProduct_smul, smul_eq_mul]

/-! ## Costs without a limit -/

/-- What a direction has to keep to be a ray: each row from falling and from rising, and each
variable from its lower and from its upper bound. -/
abbrev Constraint (m n : ℕ) : Type :=
  (Fin m ⊕ Fin m) ⊕ (Fin n ⊕ Fin n)

/-- The linear form that must not be negative; bounds that do not exist ask for nothing. -/
def constraintForm (p : Program ExtendedRational m n) : Constraint m n → Fin n → ℚ
  | .inl (.inl i) => p.matrix i
  | .inl (.inr i) => -p.matrix i
  | .inr (.inl j) => if isFinite (p.lower.get j) then Pi.single j 1 else 0
  | .inr (.inr j) => if isFinite (p.upper.get j) then Pi.single j (-1) else 0

/-- The least value of the linear form at feasible points. -/
def constraintBound (p : Program ExtendedRational m n) : Constraint m n → ℚ
  | .inl (.inl i) => p.rightSide i
  | .inl (.inr i) => -p.rightSide i
  | .inr (.inl j) => if isFinite (p.lower.get j) then (p.lower.get j).rational else 0
  | .inr (.inr j) => if isFinite (p.upper.get j) then -(p.upper.get j).rational else 0

theorem Feasible.constraintBound_le (hy : p.Feasible y) (constraint : Constraint m n) :
    p.constraintBound constraint ≤ p.constraintForm constraint ⬝ᵥ y := by
  match constraint with
  | .inl (.inl i) => exact (congrFun hy.rows i).ge
  | .inl (.inr i) =>
    change -p.rightSide i ≤ -p.matrix i ⬝ᵥ y
    rw [neg_dotProduct]
    exact neg_le_neg (congrFun hy.rows i).le
  | .inr (.inl j) =>
    have hlower := hy.lower j
    simp only [constraintBound, constraintForm]
    split_ifs with hfinite
    · rw [eq_finite_rational hfinite, finite_le] at hlower
      rw [single_dotProduct, one_mul]
      exact hlower
    · rw [zero_dotProduct]
  | .inr (.inr j) =>
    have hupper := hy.upper j
    simp only [constraintBound, constraintForm]
    split_ifs with hfinite
    · rw [eq_finite_rational hfinite, finite_le] at hupper
      rw [single_dotProduct, neg_one_mul]
      exact neg_le_neg hupper
    · rw [zero_dotProduct]

/-- A direction that keeps all constraints is a ray. -/
theorem Admissible.ray_of_constraints (hp : p.Admissible)
    (h : ∀ constraint, 0 ≤ p.constraintForm constraint ⬝ᵥ d) : p.Ray d where
  rows := by
    funext i
    have hrise := h (.inl (.inl i))
    have hfall := h (.inl (.inr i))
    simp only [constraintForm] at hrise hfall
    rw [neg_dotProduct, neg_nonneg] at hfall
    exact le_antisymm hfall hrise
  rising j hj := by
    have hupper := h (.inr (.inr j))
    simp only [constraintForm] at hupper
    split_ifs at hupper with hfinite
    · rw [single_dotProduct, neg_one_mul, neg_nonneg] at hupper
      exact absurd hj (not_lt.2 hupper)
    · exact (hp.box j).upper_eq hfinite
  falling j hj := by
    have hlower := h (.inr (.inl j))
    simp only [constraintForm] at hlower
    split_ifs at hlower with hfinite
    · rw [single_dotProduct, one_mul] at hlower
      exact absurd hj (not_lt.2 hlower)
    · exact (hp.box j).lower_eq hfinite

/-- If the cost falls without limit, it falls along a ray. -/
theorem Admissible.exists_ray (hp : p.Admissible)
    (h : ∀ bound, ∃ y, p.Feasible y ∧ p.costs ⬝ᵥ y < bound) :
    ∃ d, p.Ray d ∧ p.costs ⬝ᵥ d < 0 := by
  by_contra hnone
  have hkept : ∀ d, (∀ constraint ∈ Finset.univ, 0 ≤ p.constraintForm constraint ⬝ᵥ d) →
      0 ≤ p.costs ⬝ᵥ d := by
    intro d hd
    by_contra hcost
    exact hnone ⟨d, hp.ray_of_constraints fun constraint ↦ hd constraint (Finset.mem_univ _),
      not_le.1 hcost⟩
  obtain ⟨weight, hweight, hcosts⟩ := exists_nonneg_combination _ _ _ hkept
  -- the weights turn the constraints into a limit for the cost
  obtain ⟨y, hy, hlt⟩ := h (∑ constraint, weight constraint * p.constraintBound constraint)
  have hle : ∑ constraint, weight constraint * p.constraintBound constraint ≤ p.costs ⬝ᵥ y := by
    calc
      ∑ constraint, weight constraint * p.constraintBound constraint ≤
          ∑ constraint, weight constraint * (p.constraintForm constraint ⬝ᵥ y) := by
        apply Finset.sum_le_sum
        intro constraint _
        exact mul_le_mul_of_nonneg_left (hy.constraintBound_le constraint) (hweight constraint)
      _ = (∑ constraint, weight constraint • p.constraintForm constraint) ⬝ᵥ y := by
        simp only [sum_dotProduct, smul_dotProduct, smul_eq_mul]
      _ = p.costs ⬝ᵥ y := by rw [← hcosts]
  exact absurd hlt (not_lt.2 hle)

/-- The cost of a feasible program falls without limit if and only if it falls along a ray. -/
theorem Admissible.unbounded_iff_exists_ray (hp : p.Admissible) (hy : p.Feasible y) :
    (∀ bound, ∃ x, p.Feasible x ∧ p.costs ⬝ᵥ x < bound) ↔
      ∃ d, p.Ray d ∧ p.costs ⬝ᵥ d < 0 := by
  constructor
  · exact hp.exists_ray
  · rintro ⟨d, hd, hcost⟩
    exact hd.exists_cost_lt hcost hy

end Program

end MixedInteger
