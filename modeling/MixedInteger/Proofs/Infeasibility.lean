import MixedInteger.Proofs.Simplex.Answers
import MixedInteger.Proofs.Simplex.Duality
import MixedInteger.Proofs.Simplex.Escape

/-!
# The first phase decides feasibility

A run that ends in the first phase has found an infeasibility above the tolerance, and weak duality
turns it into a lower bound for the distance of the last point from any feasible one.  With
tolerance zero that excludes feasible points altogether.  Conversely, with tolerance zero a run
that ends in any other way has passed through the end of the first phase, where its point is
feasible, since dead ends do not occur.
-/

open Matrix
open scoped BigOperators

namespace MixedInteger

open Arithmetic ExtendedRational

namespace Simplex

variable {m n : ℕ} {p : Program ExtendedRational m n} {τ : ℚ} {allowance : ℕ}

/-- The infeasibility at the last head bounds the distance to any feasible point from below. -/
theorem infeasibility_le_distance (hp : p.Admissible) (hτ : 0 ≤ τ) (hseparated : Separated p τ)
    {last : State ExtendedRational m n}
    (hlast : (heads p (finite τ) allowance).getLast? = some last) (hphase : last.phase = .one)
    (hentering : last.entering? p (finite τ) = none) {y : Fin n → ℚ} (hy : p.Feasible y) :
    last.tableau.infeasibility ≤ τ * distance last.tableau.solution y :=
  (regular_of_mem_heads hp hτ hseparated (mem_heads_of_getLast? hlast)).infeasibility_le hp hτ
    hphase hentering hy

/-- With tolerance zero an infeasible answer leaves no feasible point. -/
theorem not_feasible_of_infeasible (hp : p.Admissible)
    (hrun : (run p (finite 0) allowance).result = some (.ok .infeasible)) (y : Fin n → ℚ) :
    ¬ p.Feasible y := by
  intro hy
  obtain ⟨last, hlast, hentering, hphase, habove, -⟩ := exists_infeasible_head hp le_rfl hrun
  have hle := infeasibility_le_distance hp le_rfl (separated_zero p) hlast hphase hentering hy
  rw [zero_mul] at hle
  exact absurd habove (not_lt.2 hle)

/-- With tolerance zero every other end of a run on a valid program has found a feasible point. -/
theorem exists_feasible_of_not_infeasible (hp : p.Valid) {result : Result ExtendedRational n}
    (hrun : (run p (finite 0) allowance).result = some result)
    (hresult : result ≠ .ok .infeasible) : ∃ y, p.Feasible y := by
  obtain ⟨last, event, hlast, hends, -⟩ := State.exists_last_head hrun
  have hhead := mem_heads_of_getLast? hlast
  have hfound (hphase : last.phase = .two) : ∃ y, p.Feasible y := by
    obtain ⟨before, -, -, -, hswitch, -⟩ := exists_switched hhead hphase
    exact ⟨_, feasible_switch hp hswitch⟩
  cases hends with
  | infeasible => exact absurd rfl hresult
  | optimal hentering hphase => exact hfound hphase
  | unbounded s hentering hphase => exact hfound hphase
  | deadEnd s hentering hphase hstep =>
    have hregular := regular_of_mem_heads hp.toAdmissible le_rfl (separated_zero p) hhead
    exact absurd hstep (State.not_unlimited_of_phase_one hp.toAdmissible hregular
      hphase hentering)

/-- The first phase decides feasibility.  An infeasible answer comes with a final point and an
infeasibility above the tolerance, which is at most the tolerance times the distance of that point
from any feasible one; and with tolerance zero a run that ends answers infeasible exactly when
there is no feasible point. -/
theorem infeasible_decides {model : Model ExtendedRational}
    {p : Program ExtendedRational model.m model.n} (hvalid : model.validate = .ok p) :
    (∀ (τ : ℚ) (allowance : ℕ), 0 ≤ τ → p.WidthsApart τ →
      (run p (finite τ) allowance).result = some (.ok .infeasible) →
      ∃ last q, (heads p (finite τ) allowance).getLast? = some last ∧
        .infeasible (last.iterations + 1) (finite q) ∈ (run p (finite τ) allowance).events ∧
        τ < q ∧
        ∀ y, p.Feasible y → q ≤ τ * ∑ j, |y j - last.tableau.point (.structural j)|) ∧
    (∀ (allowance : ℕ) (result : Result ExtendedRational model.n),
      (run p (finite 0) allowance).result = some result →
      (result = .ok .infeasible ↔ ¬ ∃ y, p.Feasible y)) := by
  have hp := Model.valid_of_validate hvalid
  constructor
  · intro τ allowance hτ hwidths hrun
    obtain ⟨last, hlast, hentering, hphase, habove, heq, hevent⟩ :=
      exists_infeasible_head hp.toAdmissible hτ hrun
    rw [heq] at hevent
    refine ⟨last, last.tableau.infeasibility, hlast, hevent, habove, fun y hy ↦ ?_⟩
    exact infeasibility_le_distance hp.toAdmissible hτ (separated_of_widths hp hwidths) hlast hphase
      hentering hy
  · intro allowance result hrun
    constructor
    · rintro rfl ⟨y, hy⟩
      exact not_feasible_of_infeasible hp.toAdmissible hrun y hy
    · intro hnone
      by_contra hresult
      exact hnone (exists_feasible_of_not_infeasible hp hrun hresult)

/-- A row whose coefficient is so small that a tolerance of one half hides it: the point four is
feasible, but the first phase does not move. -/
def quarterRow : Model ExtendedRational :=
  Model.ofRows [[finite (1 / 4)]] [finite 1] [finite 0]

theorem quarterRow_defect? : quarterRow.defect? = none := by
  decide

def quarterProgram : Program ExtendedRational 1 1 :=
  quarterRow.program (Model.shaped_of_defect?_eq_none quarterRow_defect?)

theorem quarterProgram_decided :
    quarterRow.validate = .ok quarterProgram ∧
      ((run quarterProgram (finite (1 / 2)) 9).result = some (.ok .infeasible) ∧
        ∃ last q, (heads quarterProgram (finite (1 / 2)) 9).getLast? = some last ∧ 1 / 2 < q ∧
          ∀ y, quarterProgram.Feasible y →
            q ≤ 1 / 2 * ∑ j, |y j - last.tableau.point (.structural j)|) ∧
      ((run quarterProgram (finite 0) 9).result =
          some (.ok (.optimal #v[finite 4] (finite 0))) ∧
        ∃ y, quarterProgram.Feasible y) := by
  have hvalid : quarterRow.validate = .ok quarterProgram := rfl
  have hwidths : quarterProgram.WidthsApart (1 / 2) := by
    unfold Program.WidthsApart
    decide
  have hclose : (run quarterProgram (finite (1 / 2)) 9).result = some (.ok .infeasible) := by
    with_unfolding_all decide
  have hexact : (run quarterProgram (finite 0) 9).result =
      some (.ok (.optimal #v[finite 4] (finite 0))) := by
    with_unfolding_all decide
  obtain ⟨hsound, hdecides⟩ := infeasible_decides hvalid
  obtain ⟨last, q, hlast, -, habove, hle⟩ := hsound (1 / 2) 9 (by norm_num) hwidths hclose
  refine ⟨hvalid, ⟨hclose, last, q, hlast, habove, hle⟩, hexact, ?_⟩
  by_contra hnone
  have hresult := (hdecides 9 _ hexact).2 hnone
  cases hresult

end Simplex

end MixedInteger
