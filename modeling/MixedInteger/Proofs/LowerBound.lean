import MixedInteger.Proofs.Simplex.Answers
import MixedInteger.Proofs.Simplex.Duality

/-!
# Optimal costs are lower bounds

When a run on the program of a valid model answers with an optimal point, no feasible point is
cheaper, up to the tolerance times its distance from that point.  This is weak duality at the last
head of the run.  It presupposes that the tolerance cannot confuse two bounds of a variable; with
tolerance zero it never does.
-/

open Matrix
open scoped BigOperators

namespace MixedInteger

open Arithmetic ExtendedRational

namespace Simplex

/-- The cost of an optimal point is a lower bound for the cost of every feasible point, up to the
tolerance times the distance between the two, and exactly with tolerance zero. -/
theorem optimal_cost_le {model : Model ExtendedRational}
    {p : Program ExtendedRational model.m model.n} (hvalid : model.validate = .ok p) {τ : ℚ}
    (hτ : 0 ≤ τ) {allowance : ℕ} {x : Vector ExtendedRational model.n} {z : ExtendedRational}
    (hrun : (run p (finite τ) allowance).result = some (.ok (.optimal x z))) :
    ∃ point : Fin model.n → ℚ, (∀ j, x.get j = finite (point j)) ∧
      z = finite (p.costs ⬝ᵥ point) ∧
      (p.WidthsApart τ → ∀ y, p.Feasible y →
        p.costs ⬝ᵥ point ≤ p.costs ⬝ᵥ y + τ * ∑ j, |y j - point j|) ∧
      (τ = 0 → ∀ y, p.Feasible y → p.costs ⬝ᵥ point ≤ p.costs ⬝ᵥ y) := by
  have hp := Model.valid_of_validate hvalid
  obtain ⟨last, hlast, hentering, hphase, hx, hz⟩ := exists_optimal_head hp.toAdmissible hτ hrun
  have hbound (hseparated : Separated p τ) (y : Fin model.n → ℚ) (hy : p.Feasible y) :
      p.costs ⬝ᵥ last.tableau.solution ≤
        p.costs ⬝ᵥ y + τ * distance last.tableau.solution y := by
    have hregular :=
      regular_of_mem_heads hp.toAdmissible hτ hseparated (mem_heads_of_getLast? hlast)
    exact hregular.cost_le hp.toAdmissible hτ hphase hentering hy
  refine ⟨last.tableau.solution, hx, hz, ?_, ?_⟩
  · intro hwidths y hy
    exact hbound (separated_of_widths hp hwidths) y hy
  · rintro rfl y hy
    have h := hbound (separated_zero p) y hy
    rwa [zero_mul, add_zero] at h

/-- The sample model in two rows, with exact data. -/
def boundedRows : Model ExtendedRational :=
  (Model.ofRows
      [[finite 2, finite 1, finite 1, finite 0], [finite 20, finite 1, finite 0, finite 1]]
      [finite 40, finite 100] [finite (-10), finite (-1), finite 0, finite 0]).boundedBy
    [finite 2, finite 0, finite 0, finite 0]
    [finite 3, positiveInfinity, positiveInfinity, positiveInfinity]

theorem boundedRows_defect? : boundedRows.defect? = none := by
  decide

/-- The program of the sample model. -/
def boundedProgram : Program ExtendedRational 2 4 :=
  boundedRows.program (Model.shaped_of_defect?_eq_none boundedRows_defect?)

theorem boundedProgram_cost_le :
    boundedRows.validate = .ok boundedProgram ∧ (0 : ℚ) ≤ 1 / 2 ∧
      (run boundedProgram (finite (1 / 2)) 9).result =
        some (.ok (.optimal #v[finite 3, finite 34, finite 0, finite 6] (finite (-64)))) ∧
      ∀ y, boundedProgram.Feasible y →
        -64 ≤ boundedProgram.costs ⬝ᵥ y + 1 / 2 * ∑ j, |y j - ![3, 34, 0, 6] j| := by
  have hvalid : boundedRows.validate = .ok boundedProgram := rfl
  have hrun : (run boundedProgram (finite (1 / 2)) 9).result =
      some (.ok (.optimal #v[finite 3, finite 34, finite 0, finite 6] (finite (-64)))) := by
    with_unfolding_all decide
  have hwidths : boundedProgram.WidthsApart (1 / 2) := by
    unfold Program.WidthsApart
    with_unfolding_all decide
  obtain ⟨point, hx, hz, hbound, -⟩ := optimal_cost_le hvalid (by norm_num) hrun
  have hpoint : point = ![3, 34, 0, 6] := by
    funext j
    apply finite.inj
    rw [← hx j]
    fin_cases j <;> rfl
  refine ⟨hvalid, by norm_num, hrun, fun y hy ↦ ?_⟩
  rw [finite.inj hz, ← hpoint]
  exact hbound hwidths y hy

end Simplex

end MixedInteger
