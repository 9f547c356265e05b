import MixedInteger.Proofs.Infeasibility
import MixedInteger.Proofs.Program.Tighten

/-!
# What an exact run establishes

With tolerance zero every result of a run says something about the program.  An optimal point has
a cost that no feasible point undercuts, an infeasible program has no feasible point, and a run
does not fail; all this holds for admissible programs, whether or not their bounds cross.  If they
do not, the optimal point is within bounds, and there is a feasible point.  An unbounded program
has a ray along which the cost falls, provided that the last column leaves all artificial variables
alone.
-/

open Matrix

namespace MixedInteger

open Arithmetic ExtendedRational

namespace Simplex

variable {m n : ℕ} {p : Program ExtendedRational m n} {allowance : ℕ}
  {x : Vector ExtendedRational n} {z : ExtendedRational}

/-- No feasible point is cheaper than an optimal one. -/
theorem exists_point_of_optimal (hp : p.Admissible)
    (hrun : (run p (finite 0) allowance).result = some (.ok (.optimal x z))) :
    ∃ point : Fin n → ℚ, (∀ j, x.get j = finite (point j)) ∧ z = finite (p.costs ⬝ᵥ point) ∧
      ∀ y, p.Feasible y → p.costs ⬝ᵥ point ≤ p.costs ⬝ᵥ y := by
  obtain ⟨last, hlast, hentering, hphase, hx, hz⟩ := exists_optimal_head hp le_rfl hrun
  have hregular := regular_of_mem_heads hp le_rfl (separated_zero p) (mem_heads_of_getLast? hlast)
  refine ⟨last.tableau.solution, hx, hz, fun y hy ↦ ?_⟩
  have hle := hregular.cost_le hp le_rfl hphase hentering hy
  rwa [zero_mul, add_zero] at hle

/-- An optimal point of a valid program is within bounds. -/
theorem within_of_optimal (hp : p.Valid)
    (hrun : (run p (finite 0) allowance).result = some (.ok (.optimal x z))) {point : Fin n → ℚ}
    (hpoint : ∀ j, x.get j = finite (point j)) : p.Within point := by
  obtain ⟨last, hlast, -, -, hx, -⟩ := exists_optimal_head hp.toAdmissible le_rfl hrun
  have hhead := mem_heads_of_getLast? hlast
  have hbounded := bounded_of_mem_heads hp hhead
  have hvalue (j : Fin n) : last.tableau.value.get (.structural j) = finite (point j) := by
    rw [← hpoint, hx]
    exact (exact_of_mem_heads hp.toAdmissible le_rfl hhead).toRational.value _
  constructor
  · intro j
    rw [← hvalue]
    exact hbounded.lower (.structural j)
  · intro j
    rw [← hvalue]
    exact hbounded.upper (.structural j)

/-- A run does not fail. -/
theorem not_deadEnd (hp : p.Admissible) {deadEnd : DeadEnd} :
    (run p (finite 0) allowance).result ≠ some (.error deadEnd) := by
  intro hrun
  obtain ⟨last, s, hlast, hentering, hphase, hstep, -⟩ := exists_deadEnd_head hrun
  have hregular := regular_of_mem_heads hp le_rfl (separated_zero p) (mem_heads_of_getLast? hlast)
  exact State.not_unlimited_of_phase_one hp hregular hphase hentering hstep

/-- The heading of an unlimited move is a ray if its column leaves all artificial variables
alone. -/
theorem ray_of_unlimited (hp : p.Admissible) {state : State ExtendedRational m n} {s : Fin n}
    (hstate : state.Regular p) (hentering : state.entering? p (finite 0) = some s)
    (hstep : infinity ≤ (state.limit p (finite 0) s).step)
    (hspares : ∀ i, state.tableau.Spares p s i) :
    p.Ray fun j ↦ state.tableau.heading p s (.structural j) where
  rows := by
    funext i
    have hartificial := Tableau.heading_artificial hp hstate.exact.toRational hstate.consistent
      (entersNonbasic p le_rfl state s hentering) (hspares i)
    rw [Tableau.mulVec_heading hstate.exact, hartificial, mul_zero, neg_zero]
    rfl
  rising _ hj := State.heading_rising hp hstate hentering hstep hj
  falling _ hj := State.heading_falling hp hstate hentering hstep hj

/-- A run that answers unbounded has found a ray along which the cost falls, if its last column
leaves all artificial variables alone. -/
theorem exists_ray_of_unbounded (hp : p.Admissible)
    (hrun : (run p (finite 0) allowance).result = some (.ok .unbounded)) :
    ∃ last s, (heads p (finite 0) allowance).getLast? = some last ∧ last.phase = .two ∧
      last.entering? p (finite 0) = some s ∧
      ((∀ i, last.tableau.Spares p s i) → ∃ d, p.Ray d ∧ p.costs ⬝ᵥ d < 0) := by
  obtain ⟨last, s, hlast, hentering, hphase, hstep, -⟩ := exists_unbounded_head hrun
  have hregular := regular_of_mem_heads hp le_rfl (separated_zero p) (mem_heads_of_getLast? hlast)
  have hslope := State.cost_heading_neg hp le_rfl hregular.exact hregular.consistent hentering
  rw [hphase, phaseCosts_two_dotProduct, neg_zero] at hslope
  exact ⟨last, s, hlast, hphase, hentering, fun hspares ↦
    ⟨_, ray_of_unlimited hp hregular hentering hstep hspares, hslope⟩⟩

/-- An optimal program has no ray along which the cost falls. -/
theorem cost_ray_nonneg_of_optimal (hp : p.Valid)
    (hrun : (run p (finite 0) allowance).result = some (.ok (.optimal x z))) {d : Fin n → ℚ}
    (hd : p.Ray d) : 0 ≤ p.costs ⬝ᵥ d := by
  obtain ⟨point, -, -, hleast⟩ := exists_point_of_optimal hp.toAdmissible hrun
  obtain ⟨start, hstart⟩ := exists_feasible_of_not_infeasible hp hrun (by simp)
  by_contra hcost
  obtain ⟨y, hy, hlt⟩ := hd.exists_cost_lt (not_le.1 hcost) hstart (p.costs ⬝ᵥ point)
  exact absurd (hleast y hy) (not_le.2 hlt)

end Simplex

end MixedInteger
