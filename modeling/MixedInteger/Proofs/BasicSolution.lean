import MixedInteger.Proofs.Search.Descent
import MixedInteger.Proofs.Simplex.Switch

/-!
# Bases and basic solutions

A run never inverts a matrix and never solves a system: it eliminates one column of the inverse per
pivot and moves its point along rays.  In exact arithmetic nothing is lost by that.  At every head
of a run on a program that a search examines, whatever its bounds and whatever the tolerance, the
inverse is that of the matrix of basic columns, and the basic values are those that the inverse
gives for what the nonbasic variables leave of the right-hand sides.  A row whose artificial
variable has left the basis holds from then on.
-/

open Matrix
open scoped BigOperators

namespace MixedInteger

open Arithmetic ExtendedRational

namespace Simplex

/-! ## Columns -/

/-- The entry of a variable's column in a row: a structural variable has its coefficient there, and
an artificial one has the sign of the starting residual in its own row. -/
def columnEntry {α : Type} [Arithmetic α] {m n : ℕ} (p : Program α m n) (i : Fin m) :
    Variable m n → α
  | .structural j => p.coefficient i j
  | .artificial k =>
    if k = i then artificialSign (residual p (Vector.ofFn (startValue p)) k) else 0

variable {m n : ℕ} {p : Program ExtendedRational m n}

theorem columnEntry_finite (hp : p.Admissible) (i : Fin m) (v : Variable m n) :
    columnEntry p i v = finite (extendedMatrix p i v) := by
  cases v with
  | structural j => exact hp.coefficient i j
  | artificial k =>
    simp only [columnEntry, extendedMatrix, artificialSign_start hp]
    split_ifs with hk
    · rfl
    · rfl

/-! ## Basic solutions -/

namespace Tableau

variable {t : Tableau ExtendedRational m n} {phase : Phase}

/-- What the nonbasic variables contribute to the left-hand side of each row. -/
def nonbasicPart (t : Tableau ExtendedRational m n) (p : Program ExtendedRational m n)
    (i : Fin m) : ℚ :=
  ∑ v with t.standing.get v ≠ .basic, extendedMatrix p i v * t.point v

/-- The values of the basic variables as the inverse gives them, row by row. -/
def basicSolution (t : Tableau ExtendedRational m n) (p : Program ExtendedRational m n) :
    Fin m → ℚ :=
  t.inverseMatrix *ᵥ (p.rightSide - t.nonbasicPart p)

/-- A sum over the basic variables goes through the rows. -/
theorem Consistent.sum_basic (hc : t.Consistent p phase) (f : Variable m n → ℚ) :
    ∑ v with t.standing.get v = .basic, f v = ∑ i, f (t.basis.get i) := by
  have hbasic : ({v | t.standing.get v = .basic} : Finset (Variable m n)) =
      Finset.univ.image t.basis.get := by
    ext v
    simp [hc.basic_iff]
  rw [hbasic, Finset.sum_image hc.injective.injOn]

/-- The basic columns make up for what the nonbasic variables leave of the right-hand sides. -/
theorem Exact.basisMatrix_mulVec (ht : t.Exact p) (hc : t.Consistent p phase) :
    t.basisMatrix p *ᵥ (fun r ↦ t.point (t.basis.get r)) = p.rightSide - t.nonbasicPart p := by
  funext i
  have hsplit := Finset.sum_filter_add_sum_filter_not Finset.univ
    (fun v ↦ t.standing.get v = .basic) fun v ↦ extendedMatrix p i v * t.point v
  calc
    ∑ r, t.basisMatrix p i r * t.point (t.basis.get r) =
        ∑ v with t.standing.get v = .basic, extendedMatrix p i v * t.point v :=
      (hc.sum_basic fun v ↦ extendedMatrix p i v * t.point v).symm
    _ = (extendedMatrix p *ᵥ t.point) i - t.nonbasicPart p i := by
      apply eq_sub_of_add_eq
      exact hsplit
    _ = (p.rightSide - t.nonbasicPart p) i := by rw [ht.rows, Pi.sub_apply]

/-- The point of an exact tableau is the basic solution. -/
theorem Exact.basicSolution_eq (ht : t.Exact p) (hc : t.Consistent p phase) :
    t.basicSolution p = fun r ↦ t.point (t.basis.get r) := by
  calc
    t.basicSolution p = t.inverseMatrix *ᵥ
        (t.basisMatrix p *ᵥ fun r ↦ t.point (t.basis.get r)) := by
      rw [ht.basisMatrix_mulVec hc]
      rfl
    _ = (t.inverseMatrix * t.basisMatrix p) *ᵥ fun r ↦ t.point (t.basis.get r) :=
      mulVec_mulVec _ _ _
    _ = fun r ↦ t.point (t.basis.get r) := by rw [ht.inverse_mul, one_mulVec]

/-- A row holds when its artificial variable is zero. -/
theorem Exact.row_of_artificial (ht : t.Exact p) {i : Fin m}
    (hi : t.point (.artificial i) = 0) : (p.matrix *ᵥ t.solution) i = p.rightSide i := by
  apply Eq.symm
  apply sub_eq_zero.1
  rw [ht.residual, hi, mul_zero]

/-! ## What a tableau stands for -/

/-- The two matrices of a tableau, the inverse that it keeps and the basic columns, are rational and
inverse to each other. -/
structure InvertsBasis (t : Tableau ExtendedRational m n) (p : Program ExtendedRational m n)
    (inverse basis : Matrix (Fin m) (Fin m) ℚ) : Prop where
  kept : ∀ i k, (t.inverse.get i).get k = finite (inverse i k)
  columns : ∀ i k, columnEntry p i (t.basis.get k) = finite (basis i k)
  inverse_mul : inverse * basis = 1
  mul_inverse : basis * inverse = 1

/-- The values of a tableau are rational, they satisfy the rows together with the artificial
variables, and the basic ones are what the inverse gives for the nonbasic ones. -/
structure HoldsBasicSolution (t : Tableau ExtendedRational m n)
    (p : Program ExtendedRational m n) : Prop where
  entries : ∀ i v, columnEntry p i v = finite (extendedMatrix p i v)
  value : ∀ v, t.value.get v = finite (t.point v)
  inverse : ∀ i k, (t.inverse.get i).get k = finite (t.inverseMatrix i k)
  rows : ∀ i, (p.matrix *ᵥ t.solution) i + startSign p i * t.point (.artificial i) = p.rightSide i
  basic : ∀ r, t.point (t.basis.get r) = t.basicSolution p r

/-- The artificial variable of a row is outside the basis and zero, so the row holds. -/
structure Settles (t : Tableau ExtendedRational m n) (p : Program ExtendedRational m n)
    (i : Fin m) : Prop where
  nonbasic : t.standing.get (.artificial i) ≠ .basic
  value : t.value.get (.artificial i) = 0
  row : (p.matrix *ᵥ t.solution) i = p.rightSide i

theorem Exact.invertsBasis (ht : t.Exact p) (hp : p.Admissible) :
    t.InvertsBasis p t.inverseMatrix (t.basisMatrix p) where
  kept := ht.inverse
  columns i k := columnEntry_finite hp i (t.basis.get k)
  inverse_mul := ht.inverse_mul
  mul_inverse := mul_eq_one_comm.1 ht.inverse_mul

theorem Exact.holdsBasicSolution (ht : t.Exact p) (hp : p.Admissible)
    (hc : t.Consistent p phase) : t.HoldsBasicSolution p where
  entries := columnEntry_finite hp
  value := ht.value
  inverse := ht.inverse
  rows i := by
    rw [← ht.rows]
    exact (extendedMatrix_mulVec t.point i).symm
  basic r := by rw [ht.basicSolution_eq hc]

theorem Exact.settles (ht : t.Exact p) {i : Fin m}
    (hnonbasic : t.standing.get (.artificial i) ≠ .basic) (hi : t.point (.artificial i) = 0) :
    t.Settles p i where
  nonbasic := hnonbasic
  value := by
    rw [ht.value, hi]
    rfl
  row := ht.row_of_artificial hi

end Tableau

/-- A row that is settled at one head of a run is so at all later ones, as its artificial variable
never comes back into the basis. -/
theorem settles_of_le (hp : p.Admissible) {τ : ℚ} (hτ : 0 ≤ τ) {allowance k l : ℕ}
    (hle : k ≤ l) {head later : State ExtendedRational m n}
    (hhead : (heads p (finite τ) allowance)[k]? = some head)
    (hlater : (heads p (finite τ) allowance)[l]? = some later) {i : Fin m}
    (hi : head.tableau.standing.get (.artificial i) ≠ .basic) : later.tableau.Settles p i := by
  have hmem := List.mem_of_getElem? hlater
  have hnonbasic : later.tableau.standing.get (.artificial i) ≠ .basic := by
    intro hbasic
    obtain ⟨rest, hrest⟩ := State.mem_heads_of_le hle hhead hlater
    exact hi (State.artificial_basic_of_mem_heads hrest i hbasic)
  apply (exact_of_mem_heads hp hτ hmem).settles hnonbasic
  exact vanishing_of_mem_heads hp hτ hmem i hnonbasic

/-- A row that is settled at a head of a run holds at the optimal result. -/
theorem residual_of_settled (hp : p.Admissible) {τ : ℚ} (hτ : 0 ≤ τ) {allowance k : ℕ}
    {head : State ExtendedRational m n} (hhead : (heads p (finite τ) allowance)[k]? = some head)
    {i : Fin m} (hi : head.tableau.standing.get (.artificial i) ≠ .basic)
    {x : Vector ExtendedRational n} {z : ExtendedRational}
    (hrun : (run p (finite τ) allowance).result = some (.ok (.optimal x z))) :
    residual p x i = 0 := by
  obtain ⟨last, hlast, -, -, hx, -⟩ := exists_optimal_head hp hτ hrun
  rw [List.getLast?_eq_getElem?] at hlast
  have hle : k ≤ (heads p (finite τ) allowance).length - 1 := by
    have hlt := (List.getElem?_eq_some_iff.1 hhead).1
    omega
  rw [residual_finite hp hx, (settles_of_le hp hτ hle hhead hlast hi).row, sub_self]
  rfl

/-! ## Programs that a search examines -/

section Examined

variable {model : Model ExtendedRational} {root q : Program ExtendedRational model.m model.n}
  {τ : ℚ} {integrality : ExtendedRational} {allowance : ℕ}

/-- At every head of a run on a program that the search on a valid model examines, the inverse that
the tableau keeps is the inverse, on either side, of the matrix of basic columns. -/
theorem invertsBasis_of_mem_heads (hvalid : model.validate = .ok root) (hτ : 0 ≤ τ)
    (hq : Search.Examines root ⟨finite τ, integrality⟩ q)
    {head : State ExtendedRational model.m model.n} (hhead : head ∈ heads q (finite τ) allowance) :
    ∃ inverse basis, head.tableau.InvertsBasis q inverse basis := by
  have hadmissible := (hq.descends (Model.valid_of_validate hvalid).toAdmissible hτ).admissible
  exact ⟨_, _, (exact_of_mem_heads hadmissible hτ hhead).invertsBasis hadmissible⟩

/-- At every head of a run on a program that the search on a valid model examines, the point is the
basic solution.  A row whose artificial variable has left the basis is settled from then on, and
holds for an optimal result as well. -/
theorem basicSolution_of_heads (hvalid : model.validate = .ok root) (hτ : 0 ≤ τ)
    (hq : Search.Examines root ⟨finite τ, integrality⟩ q) {k : ℕ}
    {head : State ExtendedRational model.m model.n}
    (hhead : (heads q (finite τ) allowance)[k]? = some head) :
    head.tableau.HoldsBasicSolution q ∧
      ∀ i, head.tableau.standing.get (.artificial i) ≠ .basic →
        (∀ l later, k ≤ l → (heads q (finite τ) allowance)[l]? = some later →
          later.tableau.Settles q i) ∧
        ∀ x z, (run q (finite τ) allowance).result = some (.ok (.optimal x z)) →
          residual q x i = 0 := by
  have hadmissible := (hq.descends (Model.valid_of_validate hvalid).toAdmissible hτ).admissible
  have hmem := List.mem_of_getElem? hhead
  constructor
  · apply (exact_of_mem_heads hadmissible hτ hmem).holdsBasicSolution hadmissible
    exact consistent_of_mem_heads (entersNonbasic q hτ) hmem
  · intro i hi
    exact ⟨fun l later hle hlater ↦ settles_of_le hadmissible hτ hle hhead hlater hi,
      fun x z hrun ↦ residual_of_settled hadmissible hτ hhead hi hrun⟩

end Examined

/-- Two rows in a variable that must be integral and whose box contains no integer. -/
def crossingRows : Model ExtendedRational :=
  ((Model.ofRows [[finite 1, finite 1, finite 0], [finite (-1), finite (-1), finite (-2)]]
      [finite (1 / 2), finite (-1)] [finite (-1), finite 0, finite 0]).boundedBy
    [finite (1 / 4), finite 0, finite 0]
    [finite (3 / 4), finite (1 / 2), positiveInfinity]).withIntegrality [true, false, false]

theorem crossingRows_defect? : crossingRows.defect? = none := by
  with_unfolding_all decide

def crossingProgram : Program ExtendedRational 2 3 :=
  crossingRows.program (Model.shaped_of_defect?_eq_none crossingRows_defect?)

theorem crossingProgram_result :
    (run crossingProgram (finite (1 / 1000)) 9).result =
      some (.ok (.optimal #v[finite (1 / 2), finite 0, finite (1 / 4)] (finite (-1 / 2)))) := by
  with_unfolding_all decide

/-- The part of the program below its relaxed value; its upper bound is zero and its lower bound
is not. -/
def crossingChild : Program ExtendedRational 2 3 :=
  crossingProgram.tighten 0 (finite (1 / 2)) .down

theorem examines_crossingChild :
    Search.Examines crossingProgram ⟨finite (1 / 1000), finite 0⟩ crossingChild := by
  refine ⟨_, ⟨crossingChild, 1⟩, [⟨crossingProgram.tighten 0 (finite (1 / 2)) .up, 1⟩],
    .tail .refl (.node ⟨crossingProgram, 0⟩ [] _ rfl ⟨9, crossingProgram_result⟩ nofun), ?_, rfl⟩
  unfold Search.State.next Search.State.verdict
  rw [Search.judge_eq_branched (by decide) (k := 0) (by with_unfolding_all decide)]
  rfl

/-- At the second head one artificial variable has left the basis. -/
theorem crossingChild_heads :
    (heads crossingChild (finite (1 / 1000)) 9)[1]?.map (fun head ↦
      (head.tableau.basis, head.tableau.standing.get (.artificial 0))) =
      some (#v[.structural 1, .artificial 1], .atLower) := by
  with_unfolding_all decide

theorem crossingChild_result :
    (run crossingChild (finite (1 / 1000)) 9).result =
      some (.ok (.optimal #v[finite 0, finite (1 / 2), finite (1 / 4)] (finite 0))) := by
  with_unfolding_all decide

theorem crossingChild_invertsBasis :
    crossingRows.validate = .ok crossingProgram ∧
      Search.Examines crossingProgram ⟨finite (1 / 1000), finite 0⟩ crossingChild ∧
      ∃ head ∈ heads crossingChild (finite (1 / 1000)) 9,
        head.tableau.basis = #v[.structural 1, .artificial 1] ∧
        ∃ inverse basis, head.tableau.InvertsBasis crossingChild inverse basis := by
  have hvalid : crossingRows.validate = .ok crossingProgram :=
    Model.validate_of_defect?_eq_none crossingRows_defect?
  obtain ⟨head, hhead, heq⟩ := Option.map_eq_some_iff.1 crossingChild_heads
  have hmem := List.mem_of_getElem? hhead
  exact ⟨hvalid, examines_crossingChild, head, hmem, (Prod.mk.inj heq).1,
    invertsBasis_of_mem_heads hvalid (by norm_num) examines_crossingChild hmem⟩

theorem crossingChild_basicSolution :
    crossingRows.validate = .ok crossingProgram ∧
      Search.Examines crossingProgram ⟨finite (1 / 1000), finite 0⟩ crossingChild ∧
      ∃ head, (heads crossingChild (finite (1 / 1000)) 9)[1]? = some head ∧
        head.tableau.HoldsBasicSolution crossingChild ∧
        head.tableau.basis.get 1 = .artificial 1 ∧
        head.tableau.standing.get (.artificial 0) ≠ .basic ∧
        residual crossingChild #v[finite 0, finite (1 / 2), finite (1 / 4)] 0 = 0 := by
  have hvalid : crossingRows.validate = .ok crossingProgram :=
    Model.validate_of_defect?_eq_none crossingRows_defect?
  obtain ⟨head, hhead, heq⟩ := Option.map_eq_some_iff.1 crossingChild_heads
  obtain ⟨hbasis, hstanding⟩ := Prod.mk.inj heq
  have hnonbasic : head.tableau.standing.get (.artificial 0) ≠ .basic := by
    rw [hstanding]
    exact Standing.noConfusion
  obtain ⟨hsolution, hsettled⟩ :=
    basicSolution_of_heads hvalid (by norm_num) examines_crossingChild hhead
  refine ⟨hvalid, examines_crossingChild, head, hhead, hsolution, ?_, hnonbasic, ?_⟩
  · rw [hbasis]
    rfl
  · exact (hsettled (0 : Fin 2) hnonbasic).2 _ _ crossingChild_result

end Simplex

end MixedInteger
