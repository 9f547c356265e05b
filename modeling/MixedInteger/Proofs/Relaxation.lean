import MixedInteger.Proofs.Simplex.Answers
import MixedInteger.Solver

/-!
# Answers to relaxed models

A relaxed model is answered by one run of the simplex method on its program.  Whatever status an
attempt reports is that of the outcome of this run, and the model afterwards shows the outcome.
-/

open Matrix

namespace MixedInteger

open Arithmetic ExtendedRational

namespace Model

/-- A reported status comes from the outcome of the run. -/
theorem exists_outcome_of_result {α : Type} [Arithmetic α] {model : Model α}
    {p : Program α model.m model.n} (hvalid : model.validate = .ok p) {settings : Settings α}
    {allowance : Allowance} {status : SolutionStatus}
    (h : (model.solveRelaxation settings allowance).result = some (.ok status)) :
    ∃ outcome, (Simplex.run p settings.tolerance allowance.iterations).result =
        some (.ok outcome) ∧
      outcome.status = status ∧
      (model.solveRelaxation settings allowance).after = model.answered outcome := by
  unfold solveRelaxation at h ⊢
  rw [hvalid] at h ⊢
  dsimp only at h ⊢
  cases hrun : (Simplex.run p settings.tolerance allowance.iterations).result with
  | none =>
    rw [hrun] at h
    cases h
  | some result =>
    rw [hrun] at h
    cases result with
    | error e => cases h
    | ok outcome =>
      cases h
      exact ⟨outcome, rfl, rfl, rfl⟩

variable {model : Model ExtendedRational} {p : Program ExtendedRational model.m model.n}
  {τ : ℚ} {integrality : ExtendedRational} {allowance : Allowance}

/-- An optimal answer shows the point of the last head of the run, in the second phase. -/
theorem exists_head_of_optimal (hvalid : model.validate = .ok p) (hτ : 0 ≤ τ)
    (h : (model.solveRelaxation ⟨finite τ, integrality⟩ allowance).result =
      some (.ok .optimal)) :
    ∃ last, (Simplex.heads p (finite τ) allowance.iterations).getLast? = some last ∧
      last.phase = .two ∧
      (model.solveRelaxation ⟨finite τ, integrality⟩ allowance).after.x =
        some (List.ofFn fun j ↦ finite (last.tableau.solution j)) := by
  obtain ⟨outcome, hrun, hstatus, hafter⟩ := exists_outcome_of_result hvalid h
  cases outcome with
  | optimal x z =>
    have hp := valid_of_validate hvalid
    obtain ⟨last, hlast, -, hphase, hx, -⟩ := Simplex.exists_optimal_head hp.toAdmissible hτ hrun
    refine ⟨last, hlast, hphase, ?_⟩
    rw [hafter, answered, Simplex.vector_eq_ofFn hx, Vector.toList_ofFn]
  | infeasible => cases hstatus
  | unbounded => cases hstatus

end Model

end MixedInteger
