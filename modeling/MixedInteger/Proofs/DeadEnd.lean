import MixedInteger.Proofs.Search.Descent
import MixedInteger.Proofs.Simplex.Answers
import MixedInteger.Proofs.Simplex.Escape

/-!
# Dead ends

A run meets a dead end when a variable improves the objective of the first phase and nothing limits
its move.  In exact arithmetic this comes from the tolerance alone: the ratio test overlooks the
artificial variables that fall no faster than the tolerance, and together they may fall faster.  So
the reduced cost of the entering variable exceeds the tolerance, but not by more than the number of
artificial variables that are still basic, and there are at least two of these.
-/

namespace MixedInteger

open Arithmetic ExtendedRational

namespace Simplex

section Run

variable {m n : ℕ} {p : Program ExtendedRational m n} {τ : ℚ}

/-- In the first phase, the reduced cost of a variable that enters without a limit exceeds the
tolerance, but not the tolerance of all basic artificial variables together. -/
theorem State.abs_reducedCost_of_unlimited (hp : p.Admissible) (hτ : 0 ≤ τ)
    {state : State ExtendedRational m n} (hexact : state.tableau.Exact p)
    (hconsistent : state.tableau.Consistent p state.phase) (hphase : state.phase = .one) {s : Fin n}
    (hentering : state.entering? p (finite τ) = some s)
    (hstep : infinity ≤ (state.limit p (finite τ) s).step) :
    τ < |state.tableau.reducedCost p .one (.structural s)| ∧
      |state.tableau.reducedCost p .one (.structural s)| ≤
        state.tableau.basicArtificials.card * τ := by
  have hs := entersNonbasic p hτ state s hentering
  have hfalls := cost_heading_neg hp hτ hexact hconsistent hentering
  have hbound :=
    neg_le_cost_heading_one hp hτ hexact.toRational hconsistent hentering hstep
  have hcost := Tableau.cost_heading hp hexact hconsistent hs
  rw [hphase] at hfalls hcost
  have habs : |phaseCosts p .one ⬝ᵥ state.tableau.heading p s| =
      |state.tableau.reducedCost p .one (.structural s)| := by
    rw [hcost, abs_mul, Standing.abs_direction hs, one_mul]
  have hnegative : phaseCosts p .one ⬝ᵥ state.tableau.heading p s < 0 :=
    hfalls.trans_le (neg_nonpos.2 hτ)
  rw [← habs, abs_of_neg hnegative]
  exact ⟨lt_neg_of_lt_neg hfalls, neg_le.1 hbound⟩

end Run

section Examined

variable {model : Model ExtendedRational} {root q : Program ExtendedRational model.m model.n}
  {τ : ℚ} {integrality : ExtendedRational} {allowance : ℕ} {deadEnd : DeadEnd}

/-- A run on a program that the search on a valid model examines meets a dead end only if the
reduced cost of the entering variable exceeds the tolerance, by no more than the number of
artificial variables that are still basic.  So it takes a positive tolerance, two such variables and
two rows. -/
theorem reducedCost_of_deadEnd (hvalid : model.validate = .ok root) (hτ : 0 ≤ τ)
    (hq : Search.Examines root ⟨finite τ, integrality⟩ q)
    (hrun : (run q (finite τ) allowance).result = some (.error deadEnd)) :
    ∃ last s, ∃ r : ℚ, (heads q (finite τ) allowance).getLast? = some last ∧
      deadEnd.iteration = last.iterations + 1 ∧ last.phase = .one ∧
      last.entering? q (finite τ) = some s ∧
      (last.tableau.reducedCosts q .one).get s = finite r ∧
      τ < |r| ∧ |r| ≤ last.tableau.basicArtificials.card * τ ∧
      0 < τ ∧ 2 ≤ last.tableau.basicArtificials.card ∧ 2 ≤ model.m := by
  have hadmissible := (hq.descends (Model.valid_of_validate hvalid).toAdmissible hτ).admissible
  obtain ⟨last, s, hlast, hentering, hphase, hstep, hiteration⟩ := exists_deadEnd_head hrun
  have hhead := mem_heads_of_getLast? hlast
  have hexact := exact_of_mem_heads hadmissible hτ hhead
  have hconsistent := consistent_of_mem_heads (entersNonbasic q hτ) hhead
  obtain ⟨habove, hbelow⟩ := State.abs_reducedCost_of_unlimited hadmissible hτ hexact hconsistent
    hphase hentering hstep
  have hshared : τ < last.tableau.basicArtificials.card * τ := habove.trans_le hbelow
  have hpositive : 0 < τ := by
    refine lt_of_le_of_ne hτ fun hzero ↦ ?_
    rw [← hzero, mul_zero] at hshared
    exact hshared.false
  have htwo : 2 ≤ last.tableau.basicArtificials.card := by
    rw [lt_mul_iff_one_lt_left hpositive] at hshared
    exact Nat.succ_le_of_lt (Nat.one_lt_cast.1 hshared)
  have hrows : last.tableau.basicArtificials.card ≤ model.m := by
    calc
      last.tableau.basicArtificials.card ≤ Fintype.card (Fin model.m) := Finset.card_le_univ _
      _ = model.m := Fintype.card_fin _
  exact ⟨last, s, _, hlast, hiteration, hphase, hentering,
    Tableau.reducedCosts_get hadmissible hexact.toRational .one s, habove, hbelow, hpositive, htwo,
    htwo.trans hrows⟩

end Examined

/-- Two rows of one variable, each with a coefficient below one. -/
def faintRows : Model ExtendedRational :=
  Model.ofRows [[finite (9 / 10)], [finite (9 / 10)]] [finite 1, finite 1] [finite 0]

theorem faintRows_defect? : faintRows.defect? = none := by
  decide

def faintProgram : Program ExtendedRational 2 1 :=
  faintRows.program (Model.shaped_of_defect?_eq_none faintRows_defect?)

theorem faintProgram_deadEnd :
    faintRows.validate = .ok faintProgram ∧
      (run faintProgram (finite 1) 9).result = some (.error ⟨1⟩) ∧
      ∃ last s, ∃ r : ℚ, (heads faintProgram (finite 1) 9).getLast? = some last ∧
        last.entering? faintProgram (finite 1) = some s ∧
        (last.tableau.reducedCosts faintProgram .one).get s = finite r ∧
        1 < |r| ∧ |r| ≤ last.tableau.basicArtificials.card * 1 ∧
        2 ≤ last.tableau.basicArtificials.card := by
  have hvalid : faintRows.validate = .ok faintProgram := rfl
  have hrun : (run faintProgram (finite 1) 9).result = some (.error ⟨1⟩) := by
    with_unfolding_all decide
  obtain ⟨last, s, r, hlast, -, -, hentering, hr, habove, hbelow, -, htwo, -⟩ :=
    reducedCost_of_deadEnd hvalid zero_le_one
      (Search.examines_root faintProgram ⟨finite 1, finite 0⟩) hrun
  exact ⟨hvalid, hrun, last, s, r, hlast, hentering, hr, habove, hbelow, htwo⟩

end Simplex

end MixedInteger
