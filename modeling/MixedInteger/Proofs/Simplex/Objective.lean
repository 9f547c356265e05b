import MixedInteger.Proofs.Simplex.Escape
import MixedInteger.Proofs.Simplex.Events

/-!
# The objective of a phase

The first phase minimises the sum of the artificial variables and the second one the cost.  While a
variable enters, all variables move along its heading, and so the objective of the phase changes by
the product of its score and the step, whatever the tolerance.
-/

open Matrix
open scoped BigOperators

namespace MixedInteger

open Arithmetic ExtendedRational

namespace Simplex

/-- What a phase minimises, at the current point. -/
def Tableau.objective {α : Type} [Arithmetic α] {m n : ℕ} (t : Tableau α m n)
    (p : Program α m n) : Phase → α
  | .one => Arithmetic.sum fun i : Fin m ↦ t.value.get (.artificial i)
  | .two => p.cost t.value.structural

variable {m n : ℕ} {p : Program ExtendedRational m n} {τ : ℚ}

theorem Tableau.objective_eq {t : Tableau ExtendedRational m n} (hp : p.Admissible)
    (ht : t.Rational) (phase : Phase) :
    t.objective p phase = finite (phaseCosts p phase ⬝ᵥ t.point) := by
  cases phase with
  | one =>
    rw [phaseCosts_one_dotProduct, objective]
    simp only [ht.value]
    exact sum_finite _
  | two =>
    rw [phaseCosts_two_dotProduct]
    exact hp.cost_ofFn fun j ↦ ht.value (.structural j)

namespace State

variable {state next : State ExtendedRational m n} {s : Fin n} {event : Event ExtendedRational m n}

/-- An iteration in which a variable enters takes the point along the heading of that variable, by
the step that its event reports and that the ratio test attains. -/
structure Enters (state : State ExtendedRational m n) (p : Program ExtendedRational m n) (τ : ℚ)
    (s : Fin n) (ρ : ℚ) (event : Event ExtendedRational m n) (next : State ExtendedRational m n) :
    Prop where
  step : (state.limit p (finite τ) s).step = finite ρ
  attains : state.tableau.Attains p τ s (state.tableau.basisColumn p s) ρ
    (state.limit p (finite τ) s).leaving
  event : event = .pivot (state.iterations + 1) state.phase s
    (state.limit p (finite τ) s).leaving (finite ρ)
  phase : next.phase = state.phase
  point : next.tableau.point = state.tableau.point + ρ • state.tableau.heading p s

theorem exists_enters (hp : p.Admissible) (hτ : 0 ≤ τ) (ht : state.tableau.Rational)
    (hentering : state.entering? p (finite τ) = some s)
    (h : state.advance p (finite τ) = .next event next) :
    ∃ ρ, state.Enters p τ s ρ event next := by
  obtain ⟨hevent, hstep, hphase, hvalue⟩ := event_of_entering hentering h
  obtain ⟨ρ, hρ, hattains, -⟩ := limit_attains hp hτ ht hstep
  have hpoint : next.tableau.point = state.tableau.point + ρ • state.tableau.heading p s := by
    rw [← Tableau.move_point_heading hp ht]
    funext v
    rw [Tableau.point, hvalue, moved, hρ]
    rfl
  exact ⟨ρ, hρ, hattains, by rw [hevent, hρ], hphase, hpoint⟩

/-- The objective of the phase changes by the product of score and step. -/
theorem Enters.cost_point (hp : p.Admissible) (hτ : 0 ≤ τ) (hexact : state.tableau.Exact p)
    (hconsistent : state.tableau.Consistent p state.phase)
    (hentering : state.entering? p (finite τ) = some s) {ρ : ℚ}
    (h : state.Enters p τ s ρ event next) :
    phaseCosts p state.phase ⬝ᵥ next.tableau.point =
      phaseCosts p state.phase ⬝ᵥ state.tableau.point +
        (state.tableau.standing.get (.structural s)).direction *
          state.tableau.reducedCost p state.phase (.structural s) * ρ := by
  have hs := entersNonbasic p hτ state s hentering
  rw [h.point, dotProduct_add, dotProduct_smul, Tableau.cost_heading hp hexact hconsistent hs,
    smul_eq_mul, mul_comm ρ]

end State

end Simplex

end MixedInteger
