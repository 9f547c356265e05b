import MixedInteger.Proofs.Relaxation
import MixedInteger.Proofs.Simplex.Heading

/-!
# Residuals of optimal answers

An optimal answer misses the right-hand sides by exactly what its artificial variables hold.  The
first phase ends with a sum of artificial variables within the tolerance, but nothing keeps the
second phase from moving those that are still basic: they have no upper bound and cost nothing.
So an optimal answer satisfies the rows exactly as far as the second phase has left them alone,
which it does for certain as long as its columns have no entry in their rows.
-/

open Matrix
open scoped BigOperators

namespace MixedInteger

open Arithmetic ExtendedRational

namespace Model

/-- The residual of an optimal answer is the sum of the magnitudes of the artificial variables at
the end, which vanish but for those that the first phase left in the basis.  It is within the
tolerance if the second phase has moved none of them and none is negative; with tolerance zero all
rows hold if and only if the second phase has moved none.  It moves none if all columns that enter
spare them. -/
theorem residual_of_optimal {model : Model ExtendedRational}
    {p : Program ExtendedRational model.m model.n} (hvalid : model.validate = .ok p) {τ : ℚ}
    (hτ : 0 ≤ τ) {integrality : ExtendedRational} {allowance : Allowance}
    (hresult : (model.solveRelaxation ⟨finite τ, integrality⟩ allowance).result =
      some (.ok .optimal)) :
    ∃ (point : Fin model.n → ℚ) (switch last : Simplex.State ExtendedRational model.m model.n),
      (model.solveRelaxation ⟨finite τ, integrality⟩ allowance).after.x =
        some (List.ofFn fun j ↦ finite (point j)) ∧
      Simplex.switch? p (finite τ) allowance.iterations = some switch ∧
      (Simplex.heads p (finite τ) allowance.iterations).getLast? = some last ∧
      ∑ i, switch.tableau.point (.artificial i) ≤ τ ∧
      ∑ i, |p.rightSide i - (p.matrix *ᵥ point) i| =
        ∑ i, |last.tableau.point (.artificial i)| ∧
      (∀ i, last.tableau.point (.artificial i) ≠ 0 →
        switch.tableau.standing.get (.artificial i) = .basic) ∧
      ((∀ i, 0 ≤ switch.tableau.point (.artificial i)) →
        (∀ i, last.tableau.point (.artificial i) = switch.tableau.point (.artificial i)) →
        ∑ i, |p.rightSide i - (p.matrix *ᵥ point) i| ≤ τ) ∧
      (τ = 0 → (p.matrix *ᵥ point = p.rightSide ↔
        ∀ i, last.tableau.point (.artificial i) = switch.tableau.point (.artificial i))) ∧
      ((∀ head ∈ Simplex.heads p (finite τ) allowance.iterations, head.phase = .two →
          ∀ s, head.entering? p (finite τ) = some s → ∀ i, head.tableau.Spares p s i) →
        ∀ i, last.tableau.point (.artificial i) = switch.tableau.point (.artificial i)) := by
  have hp := valid_of_validate hvalid
  obtain ⟨last, hlast, hphase, hx⟩ := exists_head_of_optimal hvalid hτ hresult
  have hhead := Simplex.mem_heads_of_getLast? hlast
  have hexact := Simplex.exact_of_mem_heads hp.toAdmissible hτ hhead
  obtain ⟨before, -, -, -, hswitch, rest, hrest, -⟩ := Simplex.exists_switched hhead hphase
  have hinfeasibility := Simplex.infeasibility_switch_le hp.toAdmissible hτ hswitch
  refine ⟨last.tableau.solution, before.switched p, last, hx, hswitch, hlast, hinfeasibility,
    hexact.totalResidual, ?_, ?_, ?_, ?_⟩
  · intro i hi
    have hbasic : last.tableau.standing.get (.artificial i) = .basic := by
      by_contra hnonbasic
      exact hi (Simplex.vanishing_of_mem_heads hp.toAdmissible hτ hhead i hnonbasic)
    exact Simplex.State.artificial_basic_of_mem_heads hrest i hbasic
  · intro hnonneg hunmoved
    calc
      p.totalResidual last.tableau.solution = ∑ i, |last.tableau.point (.artificial i)| :=
        hexact.totalResidual
      _ = ∑ i, (before.switched p).tableau.point (.artificial i) := by
        apply Finset.sum_congr rfl
        intro i _
        rw [hunmoved, abs_of_nonneg (hnonneg i)]
      _ ≤ τ := hinfeasibility
  · rintro rfl
    rw [hexact.rows_iff]
    simp only [Simplex.artificial_switch hp hswitch]
  · exact Simplex.artificial_eq_of_spares hp.toAdmissible hτ hswitch hhead hphase

/-- A row that forces the variable to its lower bound, at which it starts: the first phase ends at
once, with the artificial variable still basic at zero, and the second one takes the variable to
its upper bound. -/
def pinnedRow : Model ExtendedRational :=
  (Model.ofRows [[finite (-1)]] [finite (-2)] [finite (-1)]).boundedBy [finite 2] [finite 3]

theorem pinnedRow_defect? : pinnedRow.defect? = none := by
  decide

def pinnedProgram : Program ExtendedRational 1 1 :=
  pinnedRow.program (shaped_of_defect?_eq_none pinnedRow_defect?)

theorem pinnedRow_artificial_moves :
    pinnedRow.validate = .ok pinnedProgram ∧
      (pinnedRow.solveRelaxation ⟨finite 0, finite 0⟩ ⟨4, 4⟩).result = some (.ok .optimal) ∧
      ∃ switch last, Simplex.switch? pinnedProgram (finite 0) 4 = some switch ∧
        (Simplex.heads pinnedProgram (finite 0) 4).getLast? = some last ∧
        ¬ ∀ i, last.tableau.point (.artificial i) = switch.tableau.point (.artificial i) := by
  have hvalid : pinnedRow.validate = .ok pinnedProgram := rfl
  have hresult : (pinnedRow.solveRelaxation ⟨finite 0, finite 0⟩ ⟨4, 4⟩).result =
      some (.ok .optimal) := by
    with_unfolding_all decide
  have hx : (pinnedRow.solveRelaxation ⟨finite 0, finite 0⟩ ⟨4, 4⟩).after.x =
      some (List.ofFn fun _ : Fin pinnedRow.n ↦ finite 3) := by
    with_unfolding_all decide
  obtain ⟨point, switch, last, hpoint, hswitch, hlast, -, -, -, -, hrows, -⟩ :=
    residual_of_optimal hvalid le_rfl hresult
  refine ⟨hvalid, hresult, switch, last, hswitch, hlast, fun hunmoved ↦ ?_⟩
  have hentries := List.ofFn_injective (Option.some.inj (hpoint.symm.trans hx))
  have hthree : point = fun _ ↦ 3 := by
    funext j
    exact finite.inj (congrFun hentries j)
  have hall := (hrows rfl).2 hunmoved
  rw [hthree] at hall
  revert hall
  with_unfolding_all decide

/-- An optimal answer may miss the right-hand sides by more than the tolerance. -/
theorem not_residual_le_tolerance :
    ¬ ∀ (model : Model ExtendedRational) (p : Program ExtendedRational model.m model.n) (τ : ℚ)
        (integrality : ExtendedRational) (allowance : Allowance) (point : Fin model.n → ℚ),
      model.validate = .ok p → 0 ≤ τ →
      (model.solveRelaxation ⟨finite τ, integrality⟩ allowance).result = some (.ok .optimal) →
      (model.solveRelaxation ⟨finite τ, integrality⟩ allowance).after.x =
        some (List.ofFn fun j ↦ finite (point j)) →
      ∑ i, |p.rightSide i - (p.matrix *ᵥ point) i| ≤ τ := by
  intro h
  have hresidual := h pinnedRow pinnedProgram 0 (finite 0) ⟨4, 4⟩ (fun _ ↦ 3) rfl le_rfl
    (by with_unfolding_all decide) (by with_unfolding_all decide)
  revert hresidual
  with_unfolding_all decide

end Model

end MixedInteger
