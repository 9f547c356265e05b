import MixedInteger.Proofs.Program.Ray
import MixedInteger.Proofs.Simplex.Verdicts

/-!
# Certificates of unbounded answers

With tolerance zero an unbounded answer carries a certificate: the heading of the variable that
entered last, which can be read off its column.  It keeps all rows together with their artificial
variables, it lowers the cost at the rate of the score, and the point stays within all bounds
however far it moves along it.  Without an artificial variable in the basis the point is feasible,
the heading is a ray, and the cost falls without limit along it.
-/

open Matrix
open scoped BigOperators

namespace MixedInteger

open Arithmetic ExtendedRational

namespace Simplex

section Run

variable {m n : ℕ} {p : Program ExtendedRational m n}

/-- A direction `d` in all variables, read off the column of variable `s`, along which the state may
move without end while the cost falls. -/
structure State.Certifies (state : State ExtendedRational m n) (p : Program ExtendedRational m n)
    (s : Fin n) (d : Variable m n → ℚ) : Prop where
  entering : finite (d (.structural s)) = (state.tableau.standing.get (.structural s)).sign
  basic : ∀ i, finite (d (state.tableau.basis.get i)) =
    -(state.tableau.standing.get (.structural s)).sign * (state.tableau.column p s).get i
  nonbasic : ∀ v, v ≠ .structural s → (∀ i, state.tableau.basis.get i ≠ v) → d v = 0
  value : ∀ v, state.tableau.value.get v = finite (state.tableau.point v)
  /-- The artificial variable of a row has the sign of the residual at the start. -/
  sign : ∀ i, artificialSign (residual p (Tableau.start p).value.structural i) =
    finite (startSign p i)
  rows : ∀ i, (p.matrix *ᵥ fun j ↦ d (.structural j)) i + startSign p i * d (.artificial i) = 0
  score : state.tableau.score (state.tableau.reducedCosts p .two) s =
    finite (p.costs ⬝ᵥ fun j ↦ d (.structural j))
  falls : p.costs ⬝ᵥ (fun j ↦ d (.structural j)) < 0
  lower : ∀ ρ : ℚ, 0 ≤ ρ → ∀ v,
    Tableau.lowerBound p v ≤ finite (state.tableau.point v + ρ * d v)
  upper : ∀ ρ : ℚ, 0 ≤ ρ → ∀ v,
    finite (state.tableau.point v + ρ * d v) ≤ Tableau.upperBound p v

namespace State

variable {state : State ExtendedRational m n} {s : Fin n}

/-- The heading of an unlimited move of the second phase is a certificate. -/
theorem certifies_of_unlimited (hp : p.Admissible) (hstate : state.Regular p)
    (hbounded : state.tableau.Bounded p) (hphase : state.phase = .two)
    (hentering : state.entering? p (finite 0) = some s)
    (hstep : infinity ≤ (state.limit p (finite 0) s).step) :
    state.Certifies p s (state.tableau.heading p s) := by
  have ht := hstate.exact.toRational
  have hs := entersNonbasic p le_rfl state s hentering
  have hslope := cost_heading_neg hp le_rfl hstate.exact hstate.consistent hentering
  have hcost := Tableau.cost_heading hp hstate.exact hstate.consistent hs
  rw [hphase, phaseCosts_two_dotProduct] at hslope hcost
  rw [neg_zero] at hslope
  constructor
  case entering => rw [Tableau.heading_entering hstate.consistent hs, Standing.sign_eq]
  case basic =>
    intro i
    rw [Tableau.heading_basic hstate.consistent hs, ← opposite_eq (Tableau.column_get hp ht s)]
  case nonbasic =>
    intro v hv hnowhere
    refine Tableau.heading_of_nonbasic hstate.consistent (fun hbasic ↦ ?_) hv
    obtain ⟨i, hi⟩ := (hstate.consistent.basic_iff v).1 hbasic
    exact hnowhere i hi
  case value => exact ht.value
  case sign => exact artificialSign_start hp
  case rows =>
    intro i
    rw [Tableau.mulVec_heading hstate.exact]
    exact neg_add_cancel _
  case score => rw [Tableau.score_eq hp ht, hcost]
  case falls => exact hslope
  case lower =>
    intro ρ hρ v
    exact Program.lower_le_add hρ (hbounded.lower_point ht v)
      (heading_falling hp hstate hentering hstep)
  case upper =>
    intro ρ hρ v
    exact Program.add_le_upper hρ (hbounded.point_upper ht v)
      (heading_rising hp hstate hentering hstep)

/-- Without a basic artificial variable every column spares all of them. -/
theorem spares_of_not_basic (hconsistent : state.tableau.Consistent p state.phase)
    (hleft : ∀ i, state.tableau.standing.get (.artificial i) ≠ .basic) (i : Fin m) :
    state.tableau.Spares p s i := by
  intro hi
  exact absurd ((hconsistent.basic_iff _).2 ⟨i, hi⟩) (hleft i)

end State

end Run

/-- A run on a valid model that answers unbounded ends with a certificate: a direction that keeps
the rows together with the artificial variables, lowers the cost and never leaves the bounds.  If no
artificial variable is basic then, the last point is feasible, the direction is a ray, and the cost
falls without limit along it. -/
theorem certificate_of_unbounded {model : Model ExtendedRational}
    {p : Program ExtendedRational model.m model.n} (hvalid : model.validate = .ok p)
    {allowance : ℕ} (hrun : (run p (finite 0) allowance).result = some (.ok .unbounded)) :
    ∃ last s d, (heads p (finite 0) allowance).getLast? = some last ∧
      last.phase = .two ∧ last.entering? p (finite 0) = some s ∧
      .unbounded (last.iterations + 1) s ∈ (run p (finite 0) allowance).events ∧
      last.Certifies p s d ∧
      ((∀ i, last.tableau.standing.get (.artificial i) ≠ .basic) →
        p.Feasible last.tableau.solution ∧ p.Ray (fun j ↦ d (.structural j)) ∧
          ∀ bound, ∃ ρ : ℚ, 0 ≤ ρ ∧
            p.Feasible (last.tableau.solution + ρ • fun j ↦ d (.structural j)) ∧
            p.costs ⬝ᵥ (last.tableau.solution + ρ • fun j ↦ d (.structural j)) < bound) := by
  have hp := Model.valid_of_validate hvalid
  obtain ⟨last, s, hlast, hentering, hphase, hstep, hevent⟩ := exists_unbounded_head hrun
  have hhead := mem_heads_of_getLast? hlast
  have hregular := regular_of_mem_heads hp.toAdmissible le_rfl (separated_zero p) hhead
  have hbounded := bounded_of_mem_heads hp hhead
  have hcertifies :=
    State.certifies_of_unlimited hp.toAdmissible hregular hbounded hphase hentering hstep
  refine ⟨last, s, _, hlast, hphase, hentering, hevent, hcertifies, fun hleft ↦ ?_⟩
  have hfeasible : p.Feasible last.tableau.solution :=
    hbounded.feasible hregular.exact fun i ↦ hregular.vanishing i (hleft i)
  have hray : p.Ray fun j ↦ last.tableau.heading p s (.structural j) :=
    ray_of_unlimited hp.toAdmissible hregular hentering hstep
      (State.spares_of_not_basic hregular.consistent hleft)
  refine ⟨hfeasible, hray, fun bound ↦ ?_⟩
  obtain ⟨ρ, hρ, hlt⟩ :=
    exists_add_mul_lt hcertifies.falls (p.costs ⬝ᵥ last.tableau.solution) bound
  refine ⟨ρ, hρ, hray.feasible_add hfeasible hρ, ?_⟩
  rwa [dotProduct_add, dotProduct_smul, smul_eq_mul]

/-- A row that lets one variable grow while the other one falls from its upper bound; the first one
gains. -/
def seesaw : Model ExtendedRational :=
  (Model.ofRows [[finite 1, finite 1]] [finite 1] [finite (-1), finite 0]).boundedBy
    [finite 0, negativeInfinity] [positiveInfinity, finite 0]

theorem seesaw_defect? : seesaw.defect? = none := by
  decide

def seesawProgram : Program ExtendedRational 1 2 :=
  seesaw.program (Model.shaped_of_defect?_eq_none seesaw_defect?)

theorem seesawProgram_certified :
    seesaw.validate = .ok seesawProgram ∧
      (run seesawProgram (finite 0) 9).result = some (.ok .unbounded) ∧
      ∃ last s d, (heads seesawProgram (finite 0) 9).getLast? = some last ∧
        last.Certifies seesawProgram s d ∧
        (∀ i, last.tableau.standing.get (.artificial i) ≠ .basic) ∧
        seesawProgram.Ray (fun j ↦ d (.structural j)) := by
  have hvalid : seesaw.validate = .ok seesawProgram := rfl
  have hrun : (run seesawProgram (finite 0) 9).result = some (.ok .unbounded) := by
    with_unfolding_all decide
  obtain ⟨last, s, d, hlast, -, -, -, hcertifies, hray⟩ := certificate_of_unbounded hvalid hrun
  have hread : (heads seesawProgram (finite 0) 9).getLast?.map (fun last ↦
      last.tableau.standing.get (.artificial 0)) = some .atLower := by
    with_unfolding_all decide
  obtain ⟨head, hhead, hstanding⟩ := Option.map_eq_some_iff.1 hread
  obtain rfl : head = last := Option.some.inj (hhead.symm.trans hlast)
  have hleft (i : Fin 1) : head.tableau.standing.get (.artificial i) ≠ .basic := by
    rw [Fin.eq_zero i, hstanding]
    exact Standing.noConfusion
  exact ⟨hvalid, hrun, head, s, d, hlast, hcertifies, hleft, (hray hleft).2.1⟩

end Simplex

end MixedInteger
