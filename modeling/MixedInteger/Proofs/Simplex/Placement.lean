import MixedInteger.Proofs.Simplex.Pricing

/-!
# Nonbasic variables at their bounds

A nonbasic variable stands exactly at the bound that its standing names.  A variable that leaves
the basis lands exactly on a bound, but which one is recorded is decided by the tolerance: the
label is right unless the two bounds are closer to each other than that without being equal.  On
programs whose bounds are so separated every head of a run is regular: it is exact, its bookkeeping
is consistent, and its nonbasic variables are placed.
-/

open Matrix

namespace MixedInteger

open Arithmetic ExtendedRational

namespace Simplex

variable {m n : ℕ} {p : Program ExtendedRational m n} {τ : ℚ}

/-! ## Labels -/

/-- Finite bounds of a variable are equal or at least `τ` apart. -/
def Separated (p : Program ExtendedRational m n) (τ : ℚ) : Prop :=
  ∀ j l u, p.lower.get j = finite l → p.upper.get j = finite u → u = l ∨ τ ≤ |u - l|

theorem separated_zero (p : Program ExtendedRational m n) : Separated p 0 :=
  fun _ _ _ _ _ ↦ .inr (abs_nonneg _)

/-- No width strictly between zero and the tolerance makes the bounds of a valid program
separated. -/
theorem separated_of_widths (hp : p.Valid) (hwidths : p.WidthsApart τ) : Separated p τ := by
  intro j l u hlower hupper
  have hordered := hp.ordered j
  have h := hwidths j
  rw [hlower, hupper, finite_le] at hordered
  rw [hlower, hupper, finite_sub, zero_eq_finite, finite_lt, finite_lt] at h
  rcases hordered.eq_or_lt with heq | hlt
  · exact .inl heq.symm
  · right
    rw [abs_of_pos (by linarith)]
    by_contra hclose
    exact h ⟨by linarith, not_le.1 hclose⟩

namespace Tableau

/-- A variable that leaves the basis on one of its bounds is recorded at a bound it is on. -/
theorem leavingStanding_placed {lower upper : ExtendedRational} (hbox : Program.Box lower upper)
    (hseparated : ∀ l u, lower = finite l → upper = finite u → u = l ∨ τ ≤ |u - l|) {x : ℚ}
    (hx : finite x = lower ∨ finite x = upper) :
    (leavingStanding (finite τ) lower upper (finite x) = .atLower → finite x = lower) ∧
      (leavingStanding (finite τ) lower upper (finite x) = .atUpper → finite x = upper) := by
  unfold leavingStanding
  cases hbox with
  | between l u =>
    simp only [finite_sub, magnitude_finite, finite_lt, finite_le, finite.injEq] at hx ⊢
    obtain heq | hapart := hseparated l u rfl rfl
    · subst heq
      simp_all
    · rcases hx with rfl | rfl
      · -- the upper bound is too far away for the first test to succeed
        rw [sub_self, abs_zero, if_neg (not_lt.2 (by rwa [abs_sub_comm]))]
        simp
      · rw [sub_self, abs_zero]
        split_ifs with h₁ h₂ h₃
        · simp
        · linarith
        · exact ⟨fun _ ↦ sub_eq_zero.1 (abs_nonpos_iff.1 h₃), by simp⟩
        · simp
  | above l =>
    obtain rfl : x = l := by simpa using hx
    have hfar : Arithmetic.magnitude (finite x - positiveInfinity) = positiveInfinity := rfl
    have hnear : Arithmetic.magnitude (finite x - finite x) = finite 0 := by simp
    rw [hfar, hnear, if_neg (not_lt_of_le (finite_le_infinity τ)),
      if_pos (finite_le_infinity 0)]
    simp
  | below u =>
    obtain rfl : x = u := by simpa using hx
    have hfar : Arithmetic.magnitude (finite x - negativeInfinity) = positiveInfinity := rfl
    have hnear : Arithmetic.magnitude (finite x - finite x) = finite 0 := by simp
    have hno : ¬ (positiveInfinity : ExtendedRational) ≤ finite 0 := Bool.false_ne_true
    rw [hfar, hnear, if_neg (not_lt_of_le (finite_le_infinity τ)), if_neg hno]
    simp

/-! ## Placed tableaux -/

variable {t : Tableau ExtendedRational m n}

/-- Every nonbasic variable has the value of the bound that its standing names. -/
structure Placed (t : Tableau ExtendedRational m n) (p : Program ExtendedRational m n) : Prop where
  atLower : ∀ v, t.standing.get v = .atLower → t.value.get v = lowerBound p v
  atUpper : ∀ v, t.standing.get v = .atUpper → t.value.get v = upperBound p v

/-- A nonbasic artificial variable stands at its lower bound, as it has no other. -/
theorem Placed.artificial_standing (ht : t.Rational) (h : t.Placed p) {i : Fin m}
    (hi : t.standing.get (.artificial i) ≠ .basic) :
    t.standing.get (.artificial i) = .atLower := by
  cases hstanding : t.standing.get (.artificial i) with
  | basic => exact absurd hstanding hi
  | atLower => rfl
  | atUpper =>
    have hvalue := (ht.value _).symm.trans (h.atUpper _ hstanding)
    cases hvalue

/-- A nonbasic artificial variable is zero. -/
theorem Placed.artificial (ht : t.Rational) (h : t.Placed p) {i : Fin m}
    (hi : t.standing.get (.artificial i) ≠ .basic) : t.point (.artificial i) = 0 := by
  rw [point, h.atLower _ (h.artificial_standing ht hi)]
  rfl

theorem start_placed (hp : p.Admissible) : (start p).Placed p where
  atLower v hv := by
    cases v with
    | structural j =>
      simp only [start, PerVariable.get, vector_get_ofFn] at hv ⊢
      obtain ⟨-, ⟨-, h⟩ | ⟨h, -⟩⟩ := startValue_cases hp j
      · exact h
      · rw [h] at hv
        cases hv
    | artificial i => simp [start, PerVariable.get] at hv
  atUpper v hv := by
    cases v with
    | structural j =>
      simp only [start, PerVariable.get, vector_get_ofFn] at hv ⊢
      obtain ⟨-, ⟨h, -⟩ | ⟨-, h⟩⟩ := startValue_cases hp j
      · rw [h] at hv
        cases hv
      · exact h
    | artificial i => simp [start, PerVariable.get] at hv

/-! ## Moves read variable by variable -/

section Move

variable {phase : Phase} {s : Fin n}

theorem move_value_nonbasic (hp : p.Admissible) (ht : t.Rational) (hc : t.Consistent p phase)
    (ρ : ℚ) {v : Variable m n} (hv : t.standing.get v ≠ .basic) (hvs : v ≠ .structural s) :
    (t.move s (finite ρ) (t.column p s)).value.get v = t.value.get v := by
  rw [move_value ht (column_get hp ht s), ray_of_nonbasic _ (hc.not_basic_of_ne hv) hvs, mul_zero,
    add_zero, ht.value]

theorem move_value_entering (hp : p.Admissible) (ht : t.Rational) (hc : t.Consistent p phase)
    (ρ : ℚ) (hs : t.standing.get (.structural s) ≠ .basic) :
    (t.move s (finite ρ) (t.column p s)).value.get (.structural s) =
      finite (t.point (.structural s) + (t.standing.get (.structural s)).direction * ρ) := by
  rw [move_value ht (column_get hp ht s), ray_entering _ (hc.not_basic_of_ne hs), mul_one]

theorem move_value_basic (hp : p.Admissible) (ht : t.Rational) (hc : t.Consistent p phase)
    (ρ : ℚ) (hs : t.standing.get (.structural s) ≠ .basic) (r : Fin m) :
    (t.move s (finite ρ) (t.column p s)).value.get (t.basis.get r) =
      finite (t.point (t.basis.get r) - ρ * t.rate s (t.basisColumn p s) r) := by
  rw [move_value ht (column_get hp ht s), ray_basic hc.injective _ (hc.not_basic_of_ne hs), rate]
  congr 1
  ring

/-- The leaving variable lands on its lower or its upper bound. -/
theorem Attains.lands (hp : p.Admissible) (ht : t.Rational) (hc : t.Consistent p phase)
    (hs : t.standing.get (.structural s) ≠ .basic) {ρ : ℚ} {r : Fin m}
    (h : t.Attains p τ s (t.basisColumn p s) ρ (some r)) :
    (t.move s (finite ρ) (t.column p s)).value.get (t.basis.get r) =
        lowerBound p (t.basis.get r) ∨
      (t.move s (finite ρ) (t.column p s)).value.get (t.basis.get r) =
        upperBound p (t.basis.get r) := by
  rw [move_value_basic hp ht hc ρ hs]
  cases h with
  | rising _ u _ hupper hlands =>
    right
    rw [hlands, hupper]
  | falling _ l _ hlower hlands =>
    left
    rw [hlands, hlower]

theorem variable_separated (hseparated : Separated p τ) (v : Variable m n) :
    ∀ l u, lowerBound p v = finite l → upperBound p v = finite u → u = l ∨ τ ≤ |u - l| := by
  cases v with
  | structural j => exact hseparated j
  | artificial i =>
    intro l u _ hupper
    cases hupper

theorem Placed.pivot (hp : p.Admissible) (hseparated : Separated p τ) (ht : t.Rational)
    (hc : t.Consistent p phase) (h : t.Placed p) (hs : t.standing.get (.structural s) ≠ .basic)
    {ρ : ℚ} {r : Fin m} (hattains : t.Attains p τ s (t.basisColumn p s) ρ (some r)) :
    ((t.move s (finite ρ) (t.column p s)).pivot p (finite τ) phase s r (t.column p s)).Placed
      p := by
  have hlands := hattains.lands hp ht hc hs
  rw [move_value_basic hp ht hc ρ hs] at hlands
  have hleaving := leavingStanding_placed (variable_box hp (t.basis.get r))
    (variable_separated hseparated (t.basis.get r)) hlands
  rw [← move_value_basic hp ht hc ρ hs] at hleaving
  constructor
  · intro v hv
    rw [pivot_standing_get] at hv
    split_ifs at hv with hvr hvs
    · rw [hvr]
      exact hleaving.1 hv
    · rw [move_standing] at hv
      rw [pivot_value, move_value_nonbasic hp ht hc ρ (by rw [hv]; simp) hvs]
      exact h.atLower v hv
  · intro v hv
    rw [pivot_standing_get] at hv
    split_ifs at hv with hvr hvs
    · rw [hvr]
      exact hleaving.2 hv
    · rw [move_standing] at hv
      rw [pivot_value, move_value_nonbasic hp ht hc ρ (by rw [hv]; simp) hvs]
      exact h.atUpper v hv

theorem Placed.flip (hp : p.Admissible) (ht : t.Rational) (hc : t.Consistent p phase)
    (h : t.Placed p) (hs : t.standing.get (.structural s) ≠ .basic) {ρ : ℚ}
    (hattains : t.Attains p τ s (t.basisColumn p s) ρ none) :
    ((t.move s (finite ρ) (t.column p s)).flip s).Placed p := by
  cases hattains with
  | crossing l u hlower hupper hstep =>
    constructor
    · intro v hv
      rw [flip_standing_get, move_standing] at hv
      rw [flip_value]
      split_ifs at hv with hvs
      · subst hvs
        have hstanding : t.standing.get (.structural s) = .atUpper := by
          cases hold : t.standing.get (.structural s) <;> simp_all [oppositeStanding]
        have hvalue := (ht.value _).symm.trans ((h.atUpper _ hstanding).trans hupper)
        rw [move_value_entering hp ht hc ρ hs, hstanding, finite.inj hvalue, hstep]
        refine Eq.trans ?_ hlower.symm
        simp [Standing.direction]
      · rw [move_value_nonbasic hp ht hc ρ (by rw [hv]; simp) hvs]
        exact h.atLower v hv
    · intro v hv
      rw [flip_standing_get, move_standing] at hv
      rw [flip_value]
      split_ifs at hv with hvs
      · subst hvs
        have hstanding : t.standing.get (.structural s) = .atLower := by
          cases hold : t.standing.get (.structural s) <;> simp_all [oppositeStanding]
        have hvalue := (ht.value _).symm.trans ((h.atLower _ hstanding).trans hlower)
        rw [move_value_entering hp ht hc ρ hs, hstanding, finite.inj hvalue, hstep]
        refine Eq.trans ?_ hupper.symm
        simp [Standing.direction]
      · rw [move_value_nonbasic hp ht hc ρ (by rw [hv]; simp) hvs]
        exact h.atUpper v hv

end Move

end Tableau

/-! ## Regular states -/

/-- A state whose tableau is exact, consistent and placed. -/
structure State.Regular (state : State ExtendedRational m n) (p : Program ExtendedRational m n) :
    Prop where
  exact : state.tableau.Exact p
  consistent : state.tableau.Consistent p state.phase
  placed : state.tableau.Placed p

theorem State.start_regular (hp : p.Admissible) : (State.start p).Regular p where
  exact := Tableau.start_exact hp
  consistent := Tableau.start_consistent p
  placed := Tableau.start_placed hp

theorem State.Continues.regular (hp : p.Admissible) (hτ : 0 ≤ τ) (hseparated : Separated p τ)
    {state next : State ExtendedRational m n} (h : state.Continues p (finite τ) next)
    (hstate : state.Regular p) : next.Regular p where
  exact := h.exact hp hτ hstate.exact
  consistent := h.consistent (entersNonbasic p hτ) hstate.consistent
  placed := by
    have ht := hstate.exact.toRational
    cases h.proceeds hp hτ ht with
    | secondPhase => exact ⟨hstate.placed.atLower, hstate.placed.atUpper⟩
    | pivot s r ρ hentering hattains =>
      exact hstate.placed.pivot hp hseparated ht hstate.consistent
        (entersNonbasic p hτ state s hentering) hattains
    | flip s ρ hentering hattains =>
      exact hstate.placed.flip hp ht hstate.consistent
        (entersNonbasic p hτ state s hentering) hattains

/-- With separated bounds every head of a run is regular. -/
theorem regular_of_mem_heads (hp : p.Admissible) (hτ : 0 ≤ τ) (hseparated : Separated p τ)
    {allowance : ℕ} {head : State ExtendedRational m n}
    (hhead : head ∈ heads p (finite τ) allowance) : head.Regular p :=
  State.heads_induction (fun state ↦ state.Regular p)
    (fun _ _ hstate hnext ↦ hnext.regular hp hτ hseparated hstate)
    (State.start_regular hp) allowance head hhead

end Simplex

end MixedInteger
