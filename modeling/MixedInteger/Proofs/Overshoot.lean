import MixedInteger.Proofs.Relaxation
import MixedInteger.Proofs.Simplex.Drift

/-!
# Optimal points outside the bounds

With a positive tolerance an optimal answer can lie outside the bounds, and by far more than the
tolerance: a row with a small pivot entry is skipped by the ratio test, and a long step takes its
basic variable along.  The same can happen without such a row where boxes are narrower than the
tolerance.  The drift of the run bounds how far the answer lies outside, and an answer is within the
bounds if neither of the two occurs.
-/

namespace MixedInteger

open Arithmetic ExtendedRational

/-- Straying, said with bounds that may be infinite. -/
theorem Simplex.Tableau.Strays.within {m n : ℕ} {t : Tableau ExtendedRational m n}
    {p : Program ExtendedRational m n} {τ : ℚ} {distance : Variable m n → ℚ}
    (h : t.Strays p τ distance) (hp : p.Admissible) (j : Fin n) :
    p.lower.get j - finite τ - finite (distance (.structural j)) ≤
        finite (t.point (.structural j)) ∧
      finite (t.point (.structural j)) ≤ p.upper.get j + finite (distance (.structural j)) := by
  have hbox := hp.box j
  have hlower : ∀ l, p.lower.get j = finite l → _ := h.lower (.structural j)
  have hupper : ∀ u, p.upper.get j = finite u → _ := h.upper (.structural j)
  generalize p.lower.get j = lower, p.upper.get j = upper at hbox hlower hupper ⊢
  cases hbox with
  | between l u =>
    rw [finite_sub, finite_sub, finite_add, finite_le, finite_le]
    exact ⟨hlower l rfl, hupper u rfl⟩
  | above l =>
    rw [finite_sub, finite_sub, finite_le]
    exact ⟨hlower l rfl, finite_le_infinity _⟩
  | below u =>
    rw [finite_add, finite_le]
    exact ⟨negativeInfinity_le_finite _, hupper u rfl⟩

namespace Model

/-- An optimal point is at most by its drift above its upper bounds, and at most by its drift and
the tolerance below its lower ones.  It is within bounds if the run skips no row and every box is a
point or at least as wide as the tolerance. -/
theorem within_drift_of_optimal {model : Model ExtendedRational}
    {p : Program ExtendedRational model.m model.n} (hvalid : model.validate = .ok p) {τ : ℚ}
    (hτ : 0 ≤ τ) {integrality : ExtendedRational} {allowance : Allowance}
    (h : (model.solveRelaxation ⟨finite τ, integrality⟩ allowance).result =
      some (.ok .optimal)) :
    ∃ x : Fin model.n → ℚ,
      (model.solveRelaxation ⟨finite τ, integrality⟩ allowance).after.x =
        some (List.ofFn fun j ↦ finite (x j)) ∧
      (∀ j, p.lower.get j - finite τ -
            finite (Simplex.drift p τ allowance.iterations (.structural j)) ≤ finite (x j) ∧
          finite (x j) ≤ p.upper.get j +
            finite (Simplex.drift p τ allowance.iterations (.structural j))) ∧
      (p.WidthsApart τ → Simplex.SkipsNoRow p τ allowance.iterations →
        ∀ j, p.lower.get j ≤ finite (x j) ∧ finite (x j) ≤ p.upper.get j) := by
  have hp := valid_of_validate hvalid
  obtain ⟨last, hlast, -, hx⟩ := exists_head_of_optimal hvalid hτ h
  have hhead := Simplex.mem_heads_of_getLast? hlast
  refine ⟨_, hx, fun j ↦ ?_, fun hwidths hskips j ↦ ?_⟩
  · exact (Simplex.strays_of_mem_heads hp hτ hhead).within hp.toAdmissible j
  · have hbounded := Simplex.bounded_of_no_row_skipped hp hτ hwidths hskips hhead
    have hvalue := (Simplex.exact_of_mem_heads hp.toAdmissible hτ hhead).value (.structural j)
    have hlower := hbounded.lower (.structural j)
    have hupper := hbounded.upper (.structural j)
    rw [hvalue] at hlower hupper
    exact ⟨hlower, hupper⟩

/-! ## Answers far outside the bounds -/

/-- One row in which the first variable, of small coefficient, has a long way to go. -/
def slenderRow : Model ExtendedRational :=
  (Model.ofRows [[finite (1 / 1048576), finite 1]] [finite 1] [finite (-1), finite 0]).boundedBy
    [finite 0, finite 0] [finite 1073741824, finite 10]

theorem slenderRow_defect? : slenderRow.defect? = none := by
  decide

def slenderProgram : Program ExtendedRational 1 2 :=
  slenderRow.program (shaped_of_defect?_eq_none slenderRow_defect?)

/-- The point that the first variable pulls along, far below the lower bound of the second. -/
def slenderPoint : Fin 2 → ℚ :=
  ![1073741824, -1023]

/-- Five variables in boxes narrower than the tolerance `1 / 4`. -/
def narrowBoxes : Model ExtendedRational :=
  (Model.ofRows [[finite 2, finite 2, finite 1, finite 1, finite 2]] [finite (1 / 4)]
      [finite (7 / 2), finite (-5 / 2), finite 2, finite 0, finite (5 / 2)]).boundedBy
    [finite 0, finite 0, finite (-1), finite 1, finite 0]
    [finite (3 / 16), finite (3 / 16), finite (-13 / 16), finite (19 / 16), finite (1 / 8)]

theorem narrowBoxes_defect? : narrowBoxes.defect? = none := by
  with_unfolding_all decide

def narrowProgram : Program ExtendedRational 1 5 :=
  narrowBoxes.program (shaped_of_defect?_eq_none narrowBoxes_defect?)

/-- The point at which a run of ten iterations ends, after steps of negative length. -/
def narrowPoint : Fin 5 → ℚ :=
  ![-9 / 32, 3 / 16, -1, 19 / 16, 1 / 8]

/-- With tolerance `τ` the model is answered by the optimal point `x`. -/
structure AnsweredBy (model : Model ExtendedRational) (τ : ℚ) (allowance : Allowance)
    (x : Fin model.n → ℚ) : Prop where
  result : (model.solveRelaxation ⟨finite τ, finite 0⟩ allowance).result = some (.ok .optimal)
  point : (model.solveRelaxation ⟨finite τ, finite 0⟩ allowance).after.x =
    some (List.ofFn fun j ↦ finite (x j))

theorem slenderRow_answeredBy : slenderRow.AnsweredBy (1 / 1000000) ⟨9, 9⟩ slenderPoint :=
  ⟨by with_unfolding_all decide, by with_unfolding_all decide⟩

theorem narrowBoxes_answeredBy : narrowBoxes.AnsweredBy (1 / 4) ⟨20, 9⟩ narrowPoint :=
  ⟨by with_unfolding_all decide, by with_unfolding_all decide⟩

theorem slenderProgram_widthsApart : slenderProgram.WidthsApart (1 / 1000000) := by
  unfold Program.WidthsApart
  with_unfolding_all decide

theorem narrowProgram_skipsNoRow : Simplex.SkipsNoRow narrowProgram (1 / 4) 20 := by
  with_unfolding_all decide

/-- An optimal point can leave its bounds by more than the tolerance: because of a row that is
skipped, even if no box is narrow, and because of narrow boxes, even if no row is skipped. -/
theorem not_within_tolerance :
    (¬ ∀ (model : Model ExtendedRational) (p : Program ExtendedRational model.m model.n)
        (allowance : Allowance) (x : Fin model.n → ℚ), model.validate = .ok p →
        p.WidthsApart (1 / 1000000) → model.AnsweredBy (1 / 1000000) allowance x →
        ∀ j, p.lower.get j - finite (1 / 1000000) ≤ finite (x j) ∧
          finite (x j) ≤ p.upper.get j + finite (1 / 1000000)) ∧
      ¬ ∀ (model : Model ExtendedRational) (p : Program ExtendedRational model.m model.n) (τ : ℚ)
        (allowance : Allowance) (x : Fin model.n → ℚ), model.validate = .ok p → 0 < τ →
        Simplex.SkipsNoRow p τ allowance.iterations → model.AnsweredBy τ allowance x →
        ∀ j, p.lower.get j - finite τ ≤ finite (x j) ∧
          finite (x j) ≤ p.upper.get j + finite τ := by
  constructor
  · intro h
    have hwithin := (h slenderRow slenderProgram _ _
      (validate_of_defect?_eq_none slenderRow_defect?) slenderProgram_widthsApart
      slenderRow_answeredBy (1 : Fin 2)).1
    revert hwithin
    with_unfolding_all decide
  · intro h
    have hwithin := (h narrowBoxes narrowProgram (1 / 4) _ _
      (validate_of_defect?_eq_none narrowBoxes_defect?) (by norm_num) narrowProgram_skipsNoRow
      narrowBoxes_answeredBy (0 : Fin 5)).1
    revert hwithin
    with_unfolding_all decide

/-- One row without small coefficients, in two variables whose boxes are wide. -/
def fittingRow : Model ExtendedRational :=
  (Model.ofRows [[finite 1, finite 1]] [finite 3] [finite (-1), finite 0]).boundedBy
    [finite 0, finite 0] [finite 2, finite 5]

theorem fittingRow_defect? : fittingRow.defect? = none := by
  decide

def fittingProgram : Program ExtendedRational 1 2 :=
  fittingRow.program (shaped_of_defect?_eq_none fittingRow_defect?)

theorem fittingProgram_skipsNoRow : Simplex.SkipsNoRow fittingProgram (1 / 1000000) 9 := by
  with_unfolding_all decide

theorem fittingProgram_widthsApart : fittingProgram.WidthsApart (1 / 1000000) := by
  unfold Program.WidthsApart
  with_unfolding_all decide

theorem slender_and_fitting_within :
    (∃ x : Fin 2 → ℚ, slenderRow.AnsweredBy (1 / 1000000) ⟨9, 9⟩ x ∧
      Simplex.drift slenderProgram (1 / 1000000) 9 (.structural 1) = 1024 ∧
      slenderProgram.lower.get 1 - finite (1 / 1000000) - finite 1024 ≤ finite (x 1)) ∧
    ∃ x : Fin 2 → ℚ, fittingRow.AnsweredBy (1 / 1000000) ⟨9, 9⟩ x ∧
      ∀ j, fittingProgram.lower.get j ≤ finite (x j) ∧
        finite (x j) ≤ fittingProgram.upper.get j := by
  constructor
  · have hdrift : Simplex.drift slenderProgram (1 / 1000000) 9 (.structural 1) = 1024 := by
      with_unfolding_all decide
    obtain ⟨x, hx, hwithin, -⟩ := within_drift_of_optimal (p := slenderProgram)
      (validate_of_defect?_eq_none slenderRow_defect?) (by norm_num) slenderRow_answeredBy.result
    refine ⟨x, ⟨slenderRow_answeredBy.result, hx⟩, hdrift, ?_⟩
    rw [← hdrift]
    exact (hwithin (1 : Fin 2)).1
  · have hresult : (fittingRow.solveRelaxation ⟨finite (1 / 1000000), finite 0⟩ ⟨9, 9⟩).result =
        some (.ok .optimal) := by
      with_unfolding_all decide
    obtain ⟨x, hx, -, hfits⟩ := within_drift_of_optimal (p := fittingProgram)
      (validate_of_defect?_eq_none fittingRow_defect?) (by norm_num) hresult
    exact ⟨x, ⟨hresult, hx⟩, hfits fittingProgram_widthsApart fittingProgram_skipsNoRow⟩

end Model

end MixedInteger
