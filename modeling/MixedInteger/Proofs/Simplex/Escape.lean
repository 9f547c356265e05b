import MixedInteger.Proofs.Simplex.Heading

/-!
# Moves without a limit

With tolerance zero the ratio test looks at every basic variable that moves.  When it finds no
limit, the entering variable may move any distance, so no variable heads for a bound it has: one
that grows has no upper bound and one that falls no lower bound.  The objective of the phase falls
at a constant rate.  In the first phase it cannot, being a sum of artificial variables that stay
nonnegative; so with tolerance zero a run never meets a dead end, whether or not bounds cross.  A
positive tolerance lets each artificial variable fall, but no faster than the tolerance.
-/

open Matrix
open scoped BigOperators

namespace MixedInteger

open Arithmetic ExtendedRational

namespace Simplex

variable {m n : ℕ} {p : Program ExtendedRational m n} {τ : ℚ}

/-- The rows whose artificial variables are basic. -/
def Tableau.basicArtificials {α : Type} (t : Tableau α m n) : Finset (Fin m) :=
  Finset.univ.filter fun i ↦ t.standing.get (.artificial i) = .basic

/-! ## Moves of any length -/

namespace State

variable {state : State ExtendedRational m n} {s : Fin n}

/-- The objective of the phase falls along the heading of the entering variable. -/
theorem cost_heading_neg (hp : p.Admissible) (hτ : 0 ≤ τ) (hexact : state.tableau.Exact p)
    (hconsistent : state.tableau.Consistent p state.phase)
    (hentering : state.entering? p (finite τ) = some s) :
    phaseCosts p state.phase ⬝ᵥ state.tableau.heading p s < -τ := by
  rw [Tableau.cost_heading hp hexact hconsistent (entersNonbasic p hτ state s hentering)]
  exact score_of_entering_some hp hexact.toRational hentering

/-- Without a limit the ratio test respects every step. -/
theorem respects_of_unlimited (hp : p.Admissible) (hτ : 0 ≤ τ) (ht : state.tableau.Rational)
    (hstep : infinity ≤ (state.limit p (finite τ) s).step) (ρ : ℚ) :
    state.tableau.Respects p τ s (state.tableau.basisColumn p s) ρ := by
  apply limit_respects hp hτ ht.value (Tableau.column_get hp ht s)
  exact ExtendedRational.le_trans (finite_le_infinity ρ) hstep

/-- A basic variable with a lower bound does not fall faster than the tolerance allows. -/
theorem rate_le_of_unlimited (hp : p.Admissible) (hτ : 0 ≤ τ) (ht : state.tableau.Rational)
    (hstep : infinity ≤ (state.limit p (finite τ) s).step) {r : Fin m} {l : ℚ}
    (hl : Tableau.lowerBound p (state.tableau.basis.get r) = finite l) :
    state.tableau.rate s (state.tableau.basisColumn p s) r ≤ τ := by
  by_contra hrate
  have hfalls : -state.tableau.rate s (state.tableau.basisColumn p s) r < 0 :=
    neg_neg_of_pos (hτ.trans_lt (not_le.1 hrate))
  obtain ⟨ρ, -, hfar⟩ :=
    exists_add_mul_lt hfalls (state.tableau.point (state.tableau.basis.get r)) l
  have hle := (respects_of_unlimited hp hτ ht hstep ρ).falling r l (not_le.1 hrate) hl
  linarith

/-- A basic variable with an upper bound does not rise faster than the tolerance allows. -/
theorem neg_rate_le_of_unlimited (hp : p.Admissible) (hτ : 0 ≤ τ) (ht : state.tableau.Rational)
    (hstep : infinity ≤ (state.limit p (finite τ) s).step) {r : Fin m} {u : ℚ}
    (hu : Tableau.upperBound p (state.tableau.basis.get r) = finite u) :
    -state.tableau.rate s (state.tableau.basisColumn p s) r ≤ τ := by
  by_contra hrate
  have hrises : state.tableau.rate s (state.tableau.basisColumn p s) r < 0 :=
    neg_pos.1 (hτ.trans_lt (not_le.1 hrate))
  obtain ⟨ρ, -, hfar⟩ :=
    exists_add_mul_lt hrises (-state.tableau.point (state.tableau.basis.get r)) (-u)
  have hle := (respects_of_unlimited hp hτ ht hstep ρ).rising r u (not_le.1 hrate) hu
  linarith

/-- A variable that grows without limit has no upper bound. -/
theorem heading_rising (hp : p.Admissible) (hstate : state.Regular p)
    (hentering : state.entering? p (finite 0) = some s)
    (hstep : infinity ≤ (state.limit p (finite 0) s).step) {v : Variable m n}
    (hv : 0 < state.tableau.heading p s v) :
    Tableau.upperBound p v = positiveInfinity := by
  have ht := hstate.exact.toRational
  have hs := entersNonbasic p le_rfl state s hentering
  have hrespects := respects_of_unlimited hp le_rfl ht hstep
  refine (variable_box hp v).upper_eq fun hfinite ↦ ?_
  obtain ⟨u, hu⟩ := isFinite_iff.1 hfinite
  rcases Tableau.heading_cases hstate.consistent hs v with
    ⟨rfl, hheading⟩ | ⟨r, rfl, hheading⟩ | hheading
  · -- the entering variable grows from its lower bound
    rw [hheading] at hv
    have hstanding : state.tableau.standing.get (.structural s) = .atLower := by
      cases hstanding : state.tableau.standing.get (.structural s) with
      | atLower => rfl
      | _ => rw [hstanding] at hv; norm_num [Standing.direction] at hv
    have hlower := (hstate.placed.atLower _ hstanding).symm.trans (ht.value _)
    obtain ⟨ρ, hfar⟩ := exists_gt (u - state.tableau.point (.structural s))
    exact absurd ((hrespects ρ).crossing _ u hlower hu) (not_le.2 hfar)
  · rw [hheading] at hv
    exact absurd (neg_rate_le_of_unlimited hp le_rfl ht hstep hu) (not_le.2 hv)
  · exact absurd hheading hv.ne'

/-- A variable that falls without limit has no lower bound. -/
theorem heading_falling (hp : p.Admissible) (hstate : state.Regular p)
    (hentering : state.entering? p (finite 0) = some s)
    (hstep : infinity ≤ (state.limit p (finite 0) s).step) {v : Variable m n}
    (hv : state.tableau.heading p s v < 0) :
    Tableau.lowerBound p v = negativeInfinity := by
  have ht := hstate.exact.toRational
  have hs := entersNonbasic p le_rfl state s hentering
  have hrespects := respects_of_unlimited hp le_rfl ht hstep
  refine (variable_box hp v).lower_eq fun hfinite ↦ ?_
  obtain ⟨l, hl⟩ := isFinite_iff.1 hfinite
  rcases Tableau.heading_cases hstate.consistent hs v with
    ⟨rfl, hheading⟩ | ⟨r, rfl, hheading⟩ | hheading
  · -- the entering variable falls from its upper bound
    rw [hheading] at hv
    have hstanding : state.tableau.standing.get (.structural s) = .atUpper := by
      cases hstanding : state.tableau.standing.get (.structural s) with
      | atUpper => rfl
      | _ => rw [hstanding] at hv; norm_num [Standing.direction] at hv
    have hupper := (hstate.placed.atUpper _ hstanding).symm.trans (ht.value _)
    obtain ⟨ρ, hfar⟩ := exists_gt (state.tableau.point (.structural s) - l)
    exact absurd ((hrespects ρ).crossing l _ hl hupper) (not_le.2 hfar)
  · rw [hheading, neg_lt_zero] at hv
    exact absurd (rate_le_of_unlimited hp le_rfl ht hstep hl) (not_le.2 hv)
  · exact absurd hheading hv.ne

/-! ## The first phase -/

/-- An artificial variable that is not basic stays, and a basic one does not fall faster than the
tolerance allows, as it has a lower bound. -/
theorem neg_le_heading_artificial (hp : p.Admissible) (hτ : 0 ≤ τ)
    (ht : state.tableau.Rational) (hconsistent : state.tableau.Consistent p state.phase)
    (hentering : state.entering? p (finite τ) = some s)
    (hstep : infinity ≤ (state.limit p (finite τ) s).step) (i : Fin m) :
    (if state.tableau.standing.get (.artificial i) = .basic then -τ else 0) ≤
      state.tableau.heading p s (.artificial i) := by
  have hs := entersNonbasic p hτ state s hentering
  rcases Tableau.heading_cases hconsistent hs (.artificial i) with
    ⟨heq, -⟩ | ⟨r, hr, hheading⟩ | hheading
  · cases heq
  · have hlower : Tableau.lowerBound p (state.tableau.basis.get r) = finite 0 := by
      rw [← hr]
      rfl
    rw [hheading, if_pos ((hconsistent.basic_iff _).2 ⟨r, hr.symm⟩)]
    exact neg_le_neg (rate_le_of_unlimited hp hτ ht hstep hlower)
  · rw [hheading]
    split_ifs
    · exact neg_nonpos.2 hτ
    · exact le_rfl

/-- Without a limit the sum of the artificial variables falls at most at the tolerance for each of
them that is basic. -/
theorem neg_le_cost_heading_one (hp : p.Admissible) (hτ : 0 ≤ τ)
    (ht : state.tableau.Rational) (hconsistent : state.tableau.Consistent p state.phase)
    (hentering : state.entering? p (finite τ) = some s)
    (hstep : infinity ≤ (state.limit p (finite τ) s).step) :
    -(state.tableau.basicArtificials.card * τ) ≤
      phaseCosts p .one ⬝ᵥ state.tableau.heading p s := by
  calc
    -(state.tableau.basicArtificials.card * τ) =
        ∑ i, if state.tableau.standing.get (.artificial i) = .basic then -τ else 0 := by
      rw [← Finset.sum_filter, Finset.sum_const, nsmul_eq_mul, mul_neg]
      rfl
    _ ≤ ∑ i, state.tableau.heading p s (.artificial i) :=
      Finset.sum_le_sum fun i _ ↦
        neg_le_heading_artificial hp hτ ht hconsistent hentering hstep i
    _ = phaseCosts p .one ⬝ᵥ state.tableau.heading p s := (phaseCosts_one_dotProduct _).symm

/-- With tolerance zero every move of the first phase has a limit, as its objective has one. -/
theorem not_unlimited_of_phase_one (hp : p.Admissible) (hstate : state.Regular p)
    (hphase : state.phase = .one)
    (hentering : state.entering? p (finite 0) = some s) :
    ¬ infinity ≤ (state.limit p (finite 0) s).step := by
  intro hstep
  have hfalls := cost_heading_neg hp le_rfl hstate.exact hstate.consistent hentering
  have hbound := neg_le_cost_heading_one hp le_rfl hstate.exact.toRational hstate.consistent
    hentering hstep
  rw [hphase] at hfalls
  rw [mul_zero] at hbound
  exact absurd hfalls (not_lt.2 hbound)

end State

end Simplex

end MixedInteger
