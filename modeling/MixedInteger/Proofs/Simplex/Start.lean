import Mathlib.Algebra.BigOperators.Pi
import Mathlib.Data.Fintype.Sum
import MixedInteger.Proofs.Simplex.Limit

/-!
# Rational tableaux and their start

With its artificial variables a program has one matrix more, whose columns belong to all variables
of a tableau: the artificial variable of a row has a single entry, plus or minus one, in that row.
A tableau in exact arithmetic is rational when its point, its inverse and its basic costs are, and
then it is a point, a matrix and a cost vector over the rational numbers.  Every run begins with a
rational tableau whose point satisfies all rows of the extended matrix.
-/

open Matrix
open scoped BigOperators

namespace MixedInteger

open Arithmetic ExtendedRational

namespace Simplex

variable {m n : ℕ}

/-! ## Sums over variables -/

/-- A variable is structural or artificial. -/
def variableEquiv : Variable m n ≃ Fin n ⊕ Fin m where
  toFun
    | .structural j => .inl j
    | .artificial i => .inr i
  invFun
    | .inl j => .structural j
    | .inr i => .artificial i
  left_inv v := by cases v <;> rfl
  right_inv v := by cases v <;> rfl

instance : Fintype (Variable m n) :=
  Fintype.ofEquiv _ variableEquiv.symm

theorem sum_variable {M : Type} [AddCommMonoid M] (f : Variable m n → M) :
    ∑ v, f v = ∑ j, f (.structural j) + ∑ i, f (.artificial i) := by
  rw [← variableEquiv.symm.sum_comp f, Fintype.sum_sum_type]
  rfl

/-! ## The starting point -/

variable {p : Program ExtendedRational m n}

/-- The values at which the structural variables start. -/
def startPoint (p : Program ExtendedRational m n) (j : Fin n) : ℚ :=
  (startValue p j).rational

/-- What the starting point leaves of each right-hand side. -/
def startResidual (p : Program ExtendedRational m n) (i : Fin m) : ℚ :=
  p.rightSide i - (p.matrix *ᵥ startPoint p) i

/-- The entry of an artificial variable in its row. -/
def startSign (p : Program ExtendedRational m n) (i : Fin m) : ℚ :=
  if startResidual p i < 0 then -1 else 1

theorem startSign_mul_self (i : Fin m) : startSign p i * startSign p i = 1 := by
  unfold startSign
  split_ifs <;> norm_num

theorem startSign_mul_abs (i : Fin m) :
    startSign p i * |startResidual p i| = startResidual p i := by
  unfold startSign
  split_ifs with h
  · rw [abs_of_neg h]
    ring
  · rw [abs_of_nonneg (not_lt.1 h), one_mul]

/-- The bound of smaller magnitude is finite. -/
theorem startsAtLower_cases {lower upper : ExtendedRational} (hbox : Program.Box lower upper) :
    (startsAtLower lower upper = true ∧ ∃ l, lower = finite l) ∨
      (startsAtLower lower upper = false ∧ ∃ u, upper = finite u) := by
  cases hbox with
  | between l u =>
    cases h : startsAtLower (finite l) (finite u) with
    | true => exact .inl ⟨rfl, l, rfl⟩
    | false => exact .inr ⟨rfl, u, rfl⟩
  | above l => exact .inl ⟨rfl, l, rfl⟩
  | below u => exact .inr ⟨rfl, u, rfl⟩

/-- A variable starts at one of its bounds, a finite one. -/
theorem startValue_cases (hp : p.Admissible) (j : Fin n) :
    startValue p j = finite (startPoint p j) ∧
      ((startStanding p j = .atLower ∧ startValue p j = p.lower.get j) ∨
        (startStanding p j = .atUpper ∧ startValue p j = p.upper.get j)) := by
  unfold startPoint startValue startStanding
  obtain ⟨h, l, hl⟩ | ⟨h, u, hu⟩ := startsAtLower_cases (hp.box j)
  · rw [if_pos h, if_pos h, hl]
    exact ⟨rfl, .inl ⟨rfl, rfl⟩⟩
  · rw [if_neg (by simp [h]), if_neg (by simp [h]), hu]
    exact ⟨rfl, .inr ⟨rfl, rfl⟩⟩

/-- What a rational point leaves of a right-hand side. -/
theorem residual_finite (hp : p.Admissible) {x : Vector ExtendedRational n} {point : Fin n → ℚ}
    (hx : ∀ j, x.get j = finite (point j)) (i : Fin m) :
    residual p x i = finite (p.rightSide i - (p.matrix *ᵥ point) i) := by
  unfold residual
  have hterm (j : Fin n) : p.coefficient i j * x.get j = finite (p.matrix i j * point j) := by
    rw [hx, hp.coefficient, finite_mul]
  simp only [hterm]
  rw [sum_finite, hp.rightSide, finite_sub]
  rfl

theorem residual_start (hp : p.Admissible) (i : Fin m) :
    residual p (Vector.ofFn (startValue p)) i = finite (startResidual p i) := by
  apply residual_finite hp
  intro j
  rw [vector_get_ofFn, (startValue_cases hp j).1]

theorem artificialSign_finite (q : ℚ) :
    artificialSign (finite q) = finite (if q < 0 then -1 else 1) := by
  unfold artificialSign
  rw [zero_eq_finite, one_eq_finite, neg_finite]
  simp only [finite_lt]
  split_ifs <;> rfl

theorem artificialSign_start (hp : p.Admissible) (i : Fin m) :
    artificialSign (residual p (Vector.ofFn (startValue p)) i) = finite (startSign p i) := by
  rw [residual_start hp, artificialSign_finite, startSign]

/-! ## Extended matrices -/

/-- The columns of all variables of a tableau. -/
def extendedMatrix (p : Program ExtendedRational m n) : Matrix (Fin m) (Variable m n) ℚ
  | i, .structural j => p.matrix i j
  | i, .artificial k => if k = i then startSign p k else 0

theorem extendedMatrix_mulVec (x : Variable m n → ℚ) (i : Fin m) :
    (extendedMatrix p *ᵥ x) i =
      (p.matrix *ᵥ fun j ↦ x (.structural j)) i + startSign p i * x (.artificial i) := by
  simp only [mulVec, dotProduct, sum_variable, extendedMatrix]
  rw [Finset.sum_eq_single i]
  · rw [if_pos rfl]
  · intro k _ hk
    rw [if_neg hk, zero_mul]
  · simp

/-! ## Costs -/

/-- The costs of all variables in a phase. -/
def phaseCosts (p : Program ExtendedRational m n) : Phase → Variable m n → ℚ
  | .one, .structural _ => 0
  | .one, .artificial _ => 1
  | .two, .structural j => p.costs j
  | .two, .artificial _ => 0

theorem variableCost_finite (hp : p.Admissible) (phase : Phase) (v : Variable m n) :
    variableCost p phase v = finite (phaseCosts p phase v) := by
  cases phase <;> cases v
  · rfl
  · rfl
  · exact hp.cost _
  · rfl

/-! ## Rational tableaux -/

namespace Tableau

/-- The inverse of the basis, entry by entry. -/
def inverseMatrix (t : Tableau ExtendedRational m n) : Matrix (Fin m) (Fin m) ℚ :=
  fun i k ↦ ((t.inverse.get i).get k).rational

/-- The costs of the basic variables. -/
def rowCosts (t : Tableau ExtendedRational m n) (i : Fin m) : ℚ :=
  (t.basicCost.get i).rational

/-- The columns of the basic variables, one for each row. -/
def basisMatrix (t : Tableau ExtendedRational m n) (p : Program ExtendedRational m n) :
    Matrix (Fin m) (Fin m) ℚ :=
  (extendedMatrix p).submatrix id t.basis.get

/-- All entries of a tableau are rational. -/
structure Rational (t : Tableau ExtendedRational m n) : Prop where
  value : ∀ v, t.value.get v = finite (t.point v)
  inverse : ∀ i k, (t.inverse.get i).get k = finite (t.inverseMatrix i k)
  cost : ∀ i, t.basicCost.get i = finite (t.rowCosts i)

/-- A rational tableau that keeps the inverse of its basis, and whose point satisfies all rows. -/
structure Exact (t : Tableau ExtendedRational m n) (p : Program ExtendedRational m n) : Prop
    extends Rational t where
  inverse_mul : t.inverseMatrix * t.basisMatrix p = 1
  rows : extendedMatrix p *ᵥ t.point = p.rightSide

theorem start_value (hp : p.Admissible) (v : Variable m n) :
    (start p).value.get v = finite (match v with
      | .structural j => startPoint p j
      | .artificial i => |startResidual p i|) := by
  cases v with
  | structural j =>
    simp only [start, PerVariable.get, vector_get_ofFn]
    exact (startValue_cases hp j).1
  | artificial i =>
    simp only [start, PerVariable.get, vector_get_map, vector_get_ofFn]
    rw [residual_start hp, magnitude_finite]

theorem start_inverse (hp : p.Admissible) (i k : Fin m) :
    ((start p).inverse.get i).get k = finite (if k = i then startSign p i else 0) := by
  simp only [start, vector_get_ofFn]
  rw [artificialSign_start hp]
  split_ifs with hki
  · rfl
  · rfl

theorem start_inverseMatrix (hp : p.Admissible) (i k : Fin m) :
    (start p).inverseMatrix i k = if k = i then startSign p i else 0 := by
  rw [inverseMatrix, start_inverse hp, rational_finite]

theorem start_basisMatrix (i k : Fin m) :
    (start p).basisMatrix p i k = if k = i then startSign p k else 0 := by
  unfold basisMatrix
  rw [submatrix_apply]
  simp only [start, vector_get_ofFn, id]
  rfl

theorem start_exact (hp : p.Admissible) : (start p).Exact p where
  value v := by
    rw [point, start_value hp, rational_finite]
  inverse i k := by
    rw [inverseMatrix, start_inverse hp, rational_finite]
  cost i := by
    simp only [rowCosts, start, vector_get_replicate]
    rfl
  inverse_mul := by
    ext i k
    rw [mul_apply, one_apply]
    simp only [start_inverseMatrix hp, start_basisMatrix, ite_mul, zero_mul]
    rw [Finset.sum_ite_eq' Finset.univ i, if_pos (Finset.mem_univ i)]
    by_cases hik : i = k
    · rw [if_pos hik, if_pos hik.symm, hik, startSign_mul_self]
    · rw [if_neg hik, if_neg (Ne.symm hik), mul_zero]
  rows := by
    ext i
    have hartificial : (start p).point (.artificial i) = |startResidual p i| := by
      rw [point, start_value hp, rational_finite]
    have hstructural : (fun j ↦ (start p).point (.structural j)) = startPoint p := by
      ext j
      rw [point, start_value hp, rational_finite]
    rw [extendedMatrix_mulVec, hartificial, hstructural, startSign_mul_abs, startResidual]
    ring

end Tableau

end Simplex

end MixedInteger
