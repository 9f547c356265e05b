import Mathlib.Algebra.BigOperators.Field
import Mathlib.LinearAlgebra.Matrix.NonsingularInverse
import MixedInteger.Proofs.Simplex.Start

/-!
# The inverse of the basis along a run

While variable `s` enters, the point of a tableau moves along a ray: `s` grows at a rate of one and
each basic variable falls at the rate of its row.  The extended matrix sends the ray to zero
because the column of `s` in the basis is the inverse applied to its column in the program, so all
rows stay satisfied.  A pivot replaces one column of the basis and eliminates it from the inverse,
which is again an inverse as long as the pivot element does not vanish; the ratio test picks no
other.  Hence every head of a run is exact, for every tolerance that is not negative.
-/

open Matrix
open scoped BigOperators

namespace MixedInteger

open Arithmetic ExtendedRational

namespace Simplex

variable {m n : ℕ} {p : Program ExtendedRational m n}

namespace Tableau

variable {t : Tableau ExtendedRational m n}

/-! ## Rays -/

/-- How all variables change per unit of the entering variable `s`. -/
def ray (t : Tableau ExtendedRational m n) (s : Fin n) (column : Fin m → ℚ)
    (v : Variable m n) : ℚ :=
  (if v = .structural s then 1 else 0) - ∑ i, if t.basis.get i = v then column i else 0

/-- The column of variable `s` in terms of the basis, as a rational vector. -/
def basisColumn (t : Tableau ExtendedRational m n) (p : Program ExtendedRational m n)
    (s : Fin n) : Fin m → ℚ :=
  t.inverseMatrix *ᵥ fun i ↦ p.matrix i s

theorem column_get (hp : p.Admissible) (ht : t.Rational) (s : Fin n) (i : Fin m) :
    (t.column p s).get i = finite (t.basisColumn p s i) := by
  unfold column
  rw [vector_get_ofFn]
  simp only [ht.inverse, hp.coefficient, finite_mul]
  exact sum_finite _

/-- The extended matrix sends a ray to what the column leaves of the entering column. -/
theorem extendedMatrix_mulVec_ray (s : Fin n) (column : Fin m → ℚ) :
    extendedMatrix p *ᵥ t.ray s column =
      (fun i ↦ p.matrix i s) - t.basisMatrix p *ᵥ column := by
  ext k
  have hbasic : ∑ v, extendedMatrix p k v * ∑ i, (if t.basis.get i = v then column i else 0) =
      ∑ i, t.basisMatrix p k i * column i := by
    simp only [Finset.mul_sum]
    rw [Finset.sum_comm]
    refine Finset.sum_congr rfl fun i _ ↦ ?_
    simp only [mul_ite, mul_zero]
    rw [Finset.sum_ite_eq Finset.univ (t.basis.get i), if_pos (Finset.mem_univ _)]
    rfl
  have hentering : ∑ v, extendedMatrix p k v * (if v = .structural s then 1 else 0) =
      p.matrix k s := by
    simp only [mul_ite, mul_one, mul_zero]
    rw [Finset.sum_ite_eq' Finset.univ (Variable.structural s), if_pos (Finset.mem_univ _)]
    rfl
  simp only [mulVec, dotProduct, ray, mul_sub, Finset.sum_sub_distrib, Pi.sub_apply]
  rw [hbasic, hentering]

/-- Along the ray of a variable, no row changes. -/
theorem extendedMatrix_mulVec_ray_basisColumn (ht : t.Exact p) (s : Fin n) :
    extendedMatrix p *ᵥ t.ray s (t.basisColumn p s) = 0 := by
  rw [extendedMatrix_mulVec_ray, basisColumn, mulVec_mulVec, mul_eq_one_comm.1 ht.inverse_mul,
    one_mulVec, sub_self]

theorem ray_of_nonbasic {s : Fin n} (column : Fin m → ℚ) {v : Variable m n}
    (hv : ∀ i, t.basis.get i ≠ v) (hs : v ≠ .structural s) : t.ray s column v = 0 := by
  simp [ray, hv, hs]

theorem ray_entering {s : Fin n} (column : Fin m → ℚ) (hs : ∀ i, t.basis.get i ≠ .structural s) :
    t.ray s column (.structural s) = 1 := by
  simp [ray, hs]

theorem ray_basic (hinjective : Function.Injective t.basis.get) {s : Fin n} (column : Fin m → ℚ)
    (hs : ∀ i, t.basis.get i ≠ .structural s) (r : Fin m) :
    t.ray s column (t.basis.get r) = -column r := by
  unfold ray
  simp only [hinjective.eq_iff]
  rw [if_neg (hs r), Finset.sum_ite_eq' Finset.univ r, if_pos (Finset.mem_univ r), zero_sub]

/-! ## Moves -/

theorem foldl_follow {k : ℕ} (basis : Fin k → Variable m n) (column : Fin k → ℚ) (shift : ℚ)
    {x : Variable m n → ℚ} {value : PerVariable ExtendedRational m n}
    (hvalue : ∀ v, value.get v = finite (x v)) (v : Variable m n) :
    (Fin.foldl k (fun value i ↦ value.set (basis i)
        (value.get (basis i) - finite shift * finite (column i))) value).get v =
      finite (x v - shift * ∑ i, if basis i = v then column i else 0) := by
  induction k generalizing v with
  | zero => simp [hvalue]
  | succ k ih =>
    rw [Fin.foldl_succ_last, PerVariable.get_set, Fin.sum_univ_castSucc]
    have hrest := ih (fun i ↦ basis i.castSucc) (fun i ↦ column i.castSucc)
    by_cases hv : v = basis (Fin.last k)
    · rw [if_pos hv, hrest, finite_mul, finite_sub, ← hv, if_pos rfl]
      congr 1
      ring
    · rw [if_neg hv, hrest, if_neg (Ne.symm hv), add_zero]

/-- A move takes the point along the ray. -/
theorem move_value (ht : t.Rational) {s : Fin n} {column : Vector ExtendedRational m}
    {rational : Fin m → ℚ} (hcolumn : ∀ i, column.get i = finite (rational i)) (ρ : ℚ)
    (v : Variable m n) :
    (t.move s (finite ρ) column).value.get v = finite (t.point v +
      (t.standing.get (.structural s)).direction * ρ * t.ray s rational v) := by
  have hstart (w : Variable m n) :
      (t.value.set (.structural s) (t.value.get (.structural s) +
          (t.standing.get (.structural s)).sign * finite ρ)).get w =
        finite (t.point w + (t.standing.get (.structural s)).direction * ρ *
          if w = .structural s then 1 else 0) := by
    rw [PerVariable.get_set, Standing.sign_eq, finite_mul]
    split_ifs with hw
    · rw [hw, ht.value, finite_add, mul_one]
    · rw [ht.value, mul_zero, add_zero]
  unfold move
  simp only [hcolumn]
  rw [Standing.sign_eq, finite_mul] at hstart ⊢
  rw [foldl_follow _ _ _ hstart]
  unfold ray
  congr 1
  ring

theorem move_point (ht : t.Rational) {s : Fin n} {column : Vector ExtendedRational m}
    {rational : Fin m → ℚ} (hcolumn : ∀ i, column.get i = finite (rational i)) (ρ : ℚ) :
    (t.move s (finite ρ) column).point =
      t.point + ((t.standing.get (.structural s)).direction * ρ) • t.ray s rational := by
  funext v
  rw [point, move_value ht hcolumn, rational_finite, Pi.add_apply, Pi.smul_apply, smul_eq_mul]

theorem move_rational (ht : t.Rational) {s : Fin n} {column : Vector ExtendedRational m}
    {rational : Fin m → ℚ} (hcolumn : ∀ i, column.get i = finite (rational i)) (ρ : ℚ) :
    (t.move s (finite ρ) column).Rational where
  value v := by rw [point, move_value ht hcolumn, rational_finite]
  inverse := ht.inverse
  cost := ht.cost

theorem Exact.move (hp : p.Admissible) (ht : t.Exact p) (s : Fin n) (ρ : ℚ) :
    (t.move s (finite ρ) (t.column p s)).Exact p where
  toRational := move_rational ht.toRational (column_get hp ht.toRational s) ρ
  inverse_mul := ht.inverse_mul
  rows := by
    rw [move_point ht.toRational (column_get hp ht.toRational s), mulVec_add, mulVec_smul,
      extendedMatrix_mulVec_ray_basisColumn ht, smul_zero, add_zero, ht.rows]

/-! ## Pivots -/

theorem eliminate_get {inverse : Vector (Vector ExtendedRational m) m}
    {entry : Matrix (Fin m) (Fin m) ℚ}
    (hinverse : ∀ i k, (inverse.get i).get k = finite (entry i k))
    {column : Vector ExtendedRational m} {rational : Fin m → ℚ}
    (hcolumn : ∀ i, column.get i = finite (rational i)) {r : Fin m} (hr : rational r ≠ 0)
    (i k : Fin m) :
    ((eliminate inverse r column).get i).get k = finite
      (if i = r then entry r k / rational r
        else entry i k - rational i / rational r * entry r k) := by
  unfold eliminate
  rw [vector_get_ofFn]
  split_ifs with hi
  · rw [vector_get_ofFn, hinverse, hcolumn, finite_div _ hr]
  · rw [vector_get_ofFn, hinverse, hinverse, hcolumn, hcolumn, finite_div _ hr, finite_mul,
      finite_sub]

/-- Elimination turns an inverse of a matrix into one of the matrix with column `r` replaced. -/
theorem eliminate_mul {inverse basis next : Matrix (Fin m) (Fin m) ℚ} (h : inverse * basis = 1)
    {column : Fin m → ℚ} {r : Fin m} (hr : column r ≠ 0)
    (hentering : inverse *ᵥ (fun i ↦ next i r) = column)
    (hother : ∀ i k, k ≠ r → next i k = basis i k) :
    (of fun i k ↦ if i = r then inverse r k / column r
      else inverse i k - column i / column r * inverse r k) * next = 1 := by
  have hcolumn (i : Fin m) : ∑ l, inverse i l * next l r = column i := congrFun hentering i
  have hunit (i k : Fin m) (hk : k ≠ r) :
      ∑ l, inverse i l * next l k = if i = k then 1 else 0 := by
    rw [← one_apply, ← h, mul_apply]
    exact Finset.sum_congr rfl fun l _ ↦ by rw [hother l k hk]
  ext i k
  rw [mul_apply, one_apply]
  simp only [of_apply]
  by_cases hi : i = r
  · subst hi
    simp only [if_pos, div_mul_eq_mul_div]
    rw [← Finset.sum_div]
    by_cases hk : k = i
    · rw [hk, hcolumn, div_self hr, if_pos rfl]
    · rw [hunit i k hk, if_neg (Ne.symm hk), zero_div]
  · simp only [if_neg hi, sub_mul, mul_assoc]
    rw [Finset.sum_sub_distrib, ← Finset.mul_sum]
    by_cases hk : k = r
    · rw [hk, hcolumn, hcolumn, div_mul_cancel₀ _ hr, sub_self, if_neg hi]
    · rw [hunit i k hk, hunit r k hk, if_neg (Ne.symm hk), mul_zero, sub_zero]

theorem pivot_basisMatrix (phase : Phase) (tolerance : ExtendedRational) (s : Fin n) (r : Fin m)
    (column : Vector ExtendedRational m) (i k : Fin m) :
    (t.pivot p tolerance phase s r column).basisMatrix p i k =
      if k = r then p.matrix i s else t.basisMatrix p i k := by
  unfold basisMatrix
  rw [submatrix_apply, submatrix_apply, pivot_basis_get]
  split_ifs <;> rfl

theorem Exact.pivot (hp : p.Admissible) (ht : t.Exact p) {s : Fin n} {r : Fin m}
    {column : Vector ExtendedRational m}
    (hcolumn : ∀ i, column.get i = finite (t.basisColumn p s i)) (hr : t.basisColumn p s r ≠ 0)
    (phase : Phase) (tolerance : ExtendedRational) :
    (t.pivot p tolerance phase s r column).Exact p where
  value := ht.value
  inverse i k := by
    rw [inverseMatrix, pivot_inverse, eliminate_get ht.inverse hcolumn hr, rational_finite]
  cost i := by
    have hentering : phaseCost p phase s = finite (phaseCosts p phase (.structural s)) :=
      variableCost_finite hp phase (.structural s)
    rw [rowCosts, pivot_basicCost_get, hentering, ht.cost]
    split_ifs <;> rfl
  inverse_mul := by
    have hinverse : (t.pivot p tolerance phase s r column).inverseMatrix =
        of fun i k ↦ if i = r then t.inverseMatrix r k / t.basisColumn p s r
          else t.inverseMatrix i k -
            t.basisColumn p s i / t.basisColumn p s r * t.inverseMatrix r k := by
      ext i k
      rw [inverseMatrix, pivot_inverse, eliminate_get ht.inverse hcolumn hr, rational_finite]
      rfl
    rw [hinverse]
    refine eliminate_mul ht.inverse_mul hr ?_ ?_
    · simp only [pivot_basisMatrix, if_pos]
      rfl
    · intro i k hk
      rw [pivot_basisMatrix, if_neg hk]
  rows := ht.rows

theorem Exact.flip (ht : t.Exact p) (s : Fin n) : (t.flip s).Exact p where
  value := ht.value
  inverse := ht.inverse
  cost := ht.cost
  inverse_mul := ht.inverse_mul
  rows := ht.rows

theorem Exact.withCosts (hp : p.Admissible) (ht : t.Exact p) : (t.withCosts p).Exact p where
  value := ht.value
  inverse := ht.inverse
  cost i := by
    rw [rowCosts, withCosts_basicCost_get, variableCost_finite hp, rational_finite]
  inverse_mul := ht.inverse_mul
  rows := ht.rows

end Tableau

/-! ## Runs -/

variable {τ : ℚ}

/-- An iteration that is followed by another one, in exact arithmetic: the entering variable moves
by a rational step at which a variable lands on a bound and which takes none past a bound. -/
inductive State.Proceeds (p : Program ExtendedRational m n) (τ : ℚ)
    (state : State ExtendedRational m n) : State ExtendedRational m n → Prop where
  | secondPhase : Proceeds p τ state (state.switched p)
  | pivot (s : Fin n) (r : Fin m) (ρ : ℚ)
      (hentering : state.entering? p (finite τ) = some s)
      (hattains : state.tableau.Attains p τ s (state.tableau.basisColumn p s) ρ (some r))
      (hrespects : state.tableau.Respects p τ s (state.tableau.basisColumn p s) ρ) :
      Proceeds p τ state (state.followedBy
        ((state.tableau.move s (finite ρ) (state.tableau.column p s)).pivot p (finite τ)
          state.phase s r (state.tableau.column p s)))
  | flip (s : Fin n) (ρ : ℚ) (hentering : state.entering? p (finite τ) = some s)
      (hattains : state.tableau.Attains p τ s (state.tableau.basisColumn p s) ρ none)
      (hrespects : state.tableau.Respects p τ s (state.tableau.basisColumn p s) ρ) :
      Proceeds p τ state (state.followedBy
        ((state.tableau.move s (finite ρ) (state.tableau.column p s)).flip s))

/-- The step of an iteration that goes on is rational, a variable lands on a bound, and none is
taken past one. -/
theorem State.limit_attains (hp : p.Admissible) (hτ : 0 ≤ τ)
    {state : State ExtendedRational m n} (hstate : state.tableau.Rational) {s : Fin n}
    (hstep : ¬ infinity ≤ (state.limit p (finite τ) s).step) :
    ∃ ρ, (state.limit p (finite τ) s).step = finite ρ ∧
      state.tableau.Attains p τ s (state.tableau.basisColumn p s) ρ
        (state.limit p (finite τ) s).leaving ∧
      state.tableau.Respects p τ s (state.tableau.basisColumn p s) ρ := by
  have hcolumn := Tableau.column_get hp hstate s
  obtain ⟨ρ, hρ, hattains⟩ :=
    (limit_candidate _ _ _ _ _).attains hp hτ hstate.value hcolumn hstep
  refine ⟨ρ, hρ, hattains, ?_⟩
  apply limit_respects hp hτ hstate.value hcolumn
  rw [← hρ]
  apply le_refl_of_defined
  rw [hρ]
  simp

theorem State.Continues.proceeds (hp : p.Admissible) (hτ : 0 ≤ τ)
    {state next : State ExtendedRational m n} (h : state.Continues p (finite τ) next)
    (hstate : state.tableau.Rational) : state.Proceeds p τ next := by
  cases h with
  | secondPhase => exact .secondPhase
  | pivot s r hentering hstep hleaving =>
    obtain ⟨ρ, hρ, hattains, hrespects⟩ := State.limit_attains hp hτ hstate hstep
    rw [hleaving] at hattains
    unfold State.moved
    rw [hρ]
    exact .pivot s r ρ hentering hattains hrespects
  | flip s hentering hstep hleaving =>
    obtain ⟨ρ, hρ, hattains, hrespects⟩ := State.limit_attains hp hτ hstate hstep
    rw [hleaving] at hattains
    unfold State.moved
    rw [hρ]
    exact .flip s ρ hentering hattains hrespects

/-- The pivot element that the ratio test picks does not vanish. -/
theorem Tableau.Attains.column_ne_zero {t : Tableau ExtendedRational m n} (hτ : 0 ≤ τ) {s : Fin n}
    {column : Fin m → ℚ} {ρ : ℚ} {r : Fin m} (h : t.Attains p τ s column ρ (some r)) :
    column r ≠ 0 := by
  intro hr
  cases h with
  | rising _ u hrate => simp [Tableau.rate, hr] at hrate; linarith
  | falling _ l hrate => simp [Tableau.rate, hr] at hrate; linarith

theorem State.Continues.exact (hp : p.Admissible) (hτ : 0 ≤ τ)
    {state next : State ExtendedRational m n} (h : state.Continues p (finite τ) next)
    (hstate : state.tableau.Exact p) : next.tableau.Exact p := by
  cases h.proceeds hp hτ hstate.toRational with
  | secondPhase => exact hstate.withCosts hp
  | pivot s r ρ hentering hattains =>
    exact (hstate.move hp s ρ).pivot hp (Tableau.column_get hp hstate.toRational s)
      (hattains.column_ne_zero hτ) _ _
  | flip s ρ => exact (hstate.move hp s ρ).flip s

/-- Every head of a run keeps the inverse of its basis and satisfies all extended rows. -/
theorem exact_of_mem_heads (hp : p.Admissible) (hτ : 0 ≤ τ) {allowance : ℕ}
    {head : State ExtendedRational m n} (hhead : head ∈ heads p (finite τ) allowance) :
    head.tableau.Exact p :=
  State.heads_induction (fun state ↦ state.tableau.Exact p)
    (fun _ _ hstate hnext ↦ hnext.exact hp hτ hstate) (Tableau.start_exact hp) allowance head hhead

end Simplex

end MixedInteger
