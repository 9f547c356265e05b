import MixedInteger.Proofs.Simplex.Placement

/-!
# Points within their bounds

With tolerance zero the ratio test looks at every basic variable that moves at all, so a step that
it respects keeps the whole point within its bounds: structural variables in their boxes and
artificial ones nonnegative.  On a valid program every head of a run is within bounds, and no step
is negative.
-/

namespace MixedInteger

open Arithmetic ExtendedRational

namespace Simplex

variable {m n : ℕ} {p : Program ExtendedRational m n}

namespace Tableau

variable {t : Tableau ExtendedRational m n} {phase : Phase} {s : Fin n}

/-- Every variable, artificial ones included, is within its bounds. -/
structure Bounded (t : Tableau ExtendedRational m n) (p : Program ExtendedRational m n) :
    Prop where
  lower : ∀ v, lowerBound p v ≤ t.value.get v
  upper : ∀ v, t.value.get v ≤ upperBound p v

theorem Bounded.lower_point (ht : t.Rational) (h : t.Bounded p) (v : Variable m n) :
    lowerBound p v ≤ finite (t.point v) := by
  rw [← ht.value]
  exact h.lower v

theorem Bounded.point_upper (ht : t.Rational) (h : t.Bounded p) (v : Variable m n) :
    finite (t.point v) ≤ upperBound p v := by
  rw [← ht.value]
  exact h.upper v

theorem Bounded.artificial_nonneg (ht : t.Rational) (h : t.Bounded p) (i : Fin m) :
    0 ≤ t.point (.artificial i) :=
  finite_le.1 (h.lower_point ht (.artificial i))

theorem start_bounded (hp : p.Valid) : (start p).Bounded p := by
  have hstart (j : Fin n) : p.lower.get j ≤ startValue p j ∧ startValue p j ≤ p.upper.get j := by
    obtain ⟨hfinite, ⟨-, h⟩ | ⟨-, h⟩⟩ := startValue_cases hp.toAdmissible j
    · refine ⟨?_, h ▸ hp.ordered j⟩
      rw [← h, hfinite]
      exact finite_le.2 le_rfl
    · refine ⟨h ▸ hp.ordered j, ?_⟩
      rw [← h, hfinite]
      exact finite_le.2 le_rfl
  constructor
  · intro v
    rw [start_value hp.toAdmissible]
    cases v with
    | structural j => exact (startValue_cases hp.toAdmissible j).1 ▸ (hstart j).1
    | artificial i => exact finite_le.2 (abs_nonneg _)
  · intro v
    rw [start_value hp.toAdmissible]
    cases v with
    | structural j => exact (startValue_cases hp.toAdmissible j).1 ▸ (hstart j).2
    | artificial i => exact finite_le_infinity _

/-- Within bounds, no variable has to move backwards to reach the bound it lands on. -/
theorem Attains.step_nonneg {τ : ℚ} (hp : p.Valid) (hτ : 0 ≤ τ) (ht : t.Rational)
    (h : t.Bounded p) {column : Fin m → ℚ} {ρ : ℚ} {leaving : Option (Fin m)}
    (hattains : t.Attains p τ s column ρ leaving) : 0 ≤ ρ := by
  cases hattains with
  | crossing l u hlower hupper hstep =>
    have hordered := hp.ordered s
    rw [hlower, hupper, finite_le] at hordered
    linarith
  | rising r u hrate hupper hlands =>
    have hbound := h.point_upper ht (t.basis.get r)
    rw [hupper, finite_le] at hbound
    by_contra hneg
    nlinarith
  | falling r l hrate hlower hlands =>
    have hbound := h.lower_point ht (t.basis.get r)
    rw [hlower, finite_le] at hbound
    by_contra hneg
    nlinarith

/-- The entering variable stays in its box up to the distance between its bounds. -/
theorem Bounded.entering (hp : p.Admissible) (ht : t.Rational) (hplaced : t.Placed p)
    (hs : t.standing.get (.structural s) ≠ .basic) {column : Fin m → ℚ} {ρ : ℚ} (hρ : 0 ≤ ρ)
    (hrespects : t.Respects p 0 s column ρ) :
    p.lower.get s ≤ finite (t.point (.structural s) +
        (t.standing.get (.structural s)).direction * ρ) ∧
      finite (t.point (.structural s) + (t.standing.get (.structural s)).direction * ρ) ≤
        p.upper.get s := by
  have hvalue := ht.value (.structural s)
  have hcrossing := hrespects.crossing
  have hbox := hp.box s
  cases hstanding : t.standing.get (.structural s) with
  | basic => exact absurd hstanding hs
  | atLower =>
    have hlower : p.lower.get s = finite (t.point (.structural s)) :=
      (hplaced.atLower _ hstanding).symm.trans hvalue
    rw [hlower] at hbox hcrossing ⊢
    refine ⟨finite_le.2 ?_, ?_⟩
    · simpa [Standing.direction] using hρ
    · generalize hu : p.upper.get s = upper at hbox hcrossing ⊢
      cases hbox with
      | between l u =>
        have h := hcrossing _ u rfl rfl
        simp only [Standing.direction, finite_le]
        linarith
      | above l => exact finite_le_infinity _
  | atUpper =>
    have hupper : p.upper.get s = finite (t.point (.structural s)) :=
      (hplaced.atUpper _ hstanding).symm.trans hvalue
    rw [hupper] at hbox hcrossing ⊢
    refine ⟨?_, finite_le.2 ?_⟩
    · generalize hl : p.lower.get s = lower at hbox hcrossing ⊢
      cases hbox with
      | between l u =>
        have h := hcrossing l _ rfl rfl
        simp only [Standing.direction, finite_le]
        linarith
      | below u => exact negativeInfinity_le_finite _
    · simpa [Standing.direction] using hρ

/-- A basic variable stays within its bounds up to any step that the ratio test respects. -/
theorem Bounded.basic (ht : t.Rational) (h : t.Bounded p)
    {column : Fin m → ℚ} {ρ : ℚ} (hρ : 0 ≤ ρ) (hrespects : t.Respects p 0 s column ρ)
    (r : Fin m) :
    lowerBound p (t.basis.get r) ≤
        finite (t.point (t.basis.get r) - ρ * t.rate s column r) ∧
      finite (t.point (t.basis.get r) - ρ * t.rate s column r) ≤
        upperBound p (t.basis.get r) := by
  have hlower := h.lower_point ht (t.basis.get r)
  have hupper := h.point_upper ht (t.basis.get r)
  have hrising := hrespects.rising r
  have hfalling := hrespects.falling r
  rcases lt_trichotomy (t.rate s column r) 0 with hrate | hrate | hrate
  · -- a variable that rises moves away from its lower bound
    constructor
    · refine ExtendedRational.le_trans hlower (finite_le.2 ?_)
      nlinarith
    · cases hbound : upperBound p (t.basis.get r) with
      | finite u => exact finite_le.2 (hrising u (by linarith) hbound)
      | positiveInfinity => exact finite_le_infinity _
      | _ => rw [hbound] at hupper; cases hupper
  · rw [hrate, mul_zero, sub_zero]
    exact ⟨hlower, hupper⟩
  · constructor
    · cases hbound : lowerBound p (t.basis.get r) with
      | finite l => exact finite_le.2 (hfalling l hrate hbound)
      | negativeInfinity => exact negativeInfinity_le_finite _
      | _ => rw [hbound] at hlower; cases hlower
    · refine ExtendedRational.le_trans (finite_le.2 ?_) hupper
      nlinarith

/-- A move that the ratio test respects keeps all variables within their bounds. -/
theorem Bounded.move (hp : p.Admissible) (ht : t.Rational) (hc : t.Consistent p phase)
    (hplaced : t.Placed p) (h : t.Bounded p) (hs : t.standing.get (.structural s) ≠ .basic)
    {ρ : ℚ} (hρ : 0 ≤ ρ) (hrespects : t.Respects p 0 s (t.basisColumn p s) ρ) :
    (t.move s (finite ρ) (t.column p s)).Bounded p := by
  have hmoved (v : Variable m n) :
      lowerBound p v ≤ (t.move s (finite ρ) (t.column p s)).value.get v ∧
        (t.move s (finite ρ) (t.column p s)).value.get v ≤ upperBound p v := by
    by_cases hvs : v = .structural s
    · rw [hvs, move_value_entering hp ht hc ρ hs]
      exact Bounded.entering hp ht hplaced hs hρ hrespects
    by_cases hv : t.standing.get v = .basic
    · obtain ⟨r, rfl⟩ := (hc.basic_iff v).1 hv
      rw [move_value_basic hp ht hc ρ hs]
      exact h.basic ht hρ hrespects r
    · rw [move_value_nonbasic hp ht hc ρ hv hvs]
      exact ⟨h.lower v, h.upper v⟩
  exact ⟨fun v ↦ (hmoved v).1, fun v ↦ (hmoved v).2⟩

end Tableau

/-! ## Runs -/

theorem State.Continues.bounded (hp : p.Valid) {state next : State ExtendedRational m n}
    (h : state.Continues p (finite 0) next) (hstate : state.Regular p)
    (hbounded : state.tableau.Bounded p) : next.tableau.Bounded p := by
  have ht := hstate.exact.toRational
  have hmoved {s : Fin n} (hentering : state.entering? p (finite 0) = some s) {ρ : ℚ}
      {leaving : Option (Fin m)}
      (hattains : state.tableau.Attains p 0 s (state.tableau.basisColumn p s) ρ leaving)
      (hrespects : state.tableau.Respects p 0 s (state.tableau.basisColumn p s) ρ) :
      (state.tableau.move s (finite ρ) (state.tableau.column p s)).Bounded p :=
    hbounded.move hp.toAdmissible ht hstate.consistent hstate.placed
      (entersNonbasic p le_rfl state s hentering) (hattains.step_nonneg hp le_rfl ht hbounded)
      hrespects
  cases h.proceeds hp.toAdmissible le_rfl ht with
  | secondPhase => exact ⟨hbounded.lower, hbounded.upper⟩
  | pivot s r ρ hentering hattains hrespects =>
    have hnext := hmoved hentering hattains hrespects
    exact ⟨hnext.lower, hnext.upper⟩
  | flip s ρ hentering hattains hrespects =>
    have hnext := hmoved hentering hattains hrespects
    exact ⟨hnext.lower, hnext.upper⟩

/-- With tolerance zero every head of a run on a valid program is within bounds. -/
theorem bounded_of_mem_heads (hp : p.Valid) {allowance : ℕ} {head : State ExtendedRational m n}
    (hhead : head ∈ heads p (finite 0) allowance) : head.tableau.Bounded p := by
  refine (State.heads_induction (fun state ↦ state.Regular p ∧ state.tableau.Bounded p)
    ?_ ⟨?_, Tableau.start_bounded hp⟩ allowance head hhead).2
  · rintro state next ⟨hstate, hbounded⟩ hnext
    exact ⟨hnext.regular hp.toAdmissible le_rfl (separated_zero p) hstate,
      hnext.bounded hp hstate hbounded⟩
  · exact State.start_regular hp.toAdmissible

end Simplex

end MixedInteger
