import MixedInteger.Proofs.Binary64
import MixedInteger.Proofs.Simplex.Start

/-!
# Accepted models and their starting points

A model is accepted exactly if its lists fit together, its data are finite and each variable has
bounds that are in order, at least one of them finite.  Of floating-point bounds this says neither
more nor less than the order of the tests suggests: none is undefined, no lower bound is infinite
and no upper one minus infinity.  What is accepted can be started: every structural variable takes a
finite bound of least magnitude, the upper one if both have the same, with the standing that goes
with it, and in exact arithmetic every artificial variable takes what that leaves of its row.
-/

open Matrix

namespace MixedInteger

open Arithmetic ExtendedRational Simplex

/-! ## Well-posed models -/

/-- Floating-point bounds that leave a variable a finite value to start from. -/
structure Startable (lower upper : Float) : Prop where
  lower_defined : lower.isNaN = false
  upper_defined : upper.isNaN = false
  lower_reachable : lower ≠ infinity
  upper_reachable : upper ≠ -infinity
  ordered : lower ≤ upper
  finite : lower.isFinite = true ∨ upper.isFinite = true

/-- A floating-point model whose lists fit together, with finite data and startable variables. -/
structure Model.WellPosed (model : Model Float) : Prop extends model.Shaped where
  coefficient : ∀ row ∈ model.A, ∀ a ∈ row, a.isFinite = true
  rightSide : ∀ a ∈ model.b, a.isFinite = true
  cost : ∀ a ∈ model.c, a.isFinite = true
  bounds : ∀ (j : ℕ) (l u : Float),
    model.lower[j]? = some l → model.upper[j]? = some u → Startable l u

/-- The check of two bounds lets exactly the startable ones pass. -/
theorem boundDefect?_eq_none_iff_startable {lower upper : Float} {j : ℕ} :
    Model.boundDefect? lower upper j = none ↔ Startable lower upper := by
  unfold Model.boundDefect?
  simp only [Binary64.isUndefined_eq, Binary64.infinity_le_iff, Binary64.le_neg_infinity_iff]
  constructor
  · intro h
    split_ifs at h with hundefined hunreachable hcrossed hfree
    rw [Bool.or_eq_true, not_or, Bool.not_eq_true, Bool.not_eq_true] at hundefined
    obtain ⟨hlower, hupper⟩ := hundefined
    obtain ⟨hreachable, hreached⟩ := not_or.1 hunreachable
    rw [Binary64.not_lt hupper hlower] at hcrossed
    rw [Binary64.isInfinite_eq hlower, Binary64.isInfinite_eq hupper, ← Bool.not_or,
      Bool.not_eq_true, Bool.not_eq_false', Bool.or_eq_true] at hfree
    exact ⟨hlower, hupper, hreachable, hreached, hcrossed, hfree⟩
  · intro h
    rw [if_neg, if_neg, if_neg, if_neg]
    · rw [Binary64.isInfinite_eq h.lower_defined, Binary64.isInfinite_eq h.upper_defined,
        ← Bool.not_or, Bool.not_eq_true, Bool.not_eq_false', Bool.or_eq_true]
      exact h.finite
    · exact (Binary64.not_lt h.upper_defined h.lower_defined).2 h.ordered
    · exact not_or.2 ⟨h.lower_reachable, h.upper_reachable⟩
    · rw [h.lower_defined, h.upper_defined]
      exact Bool.false_ne_true

/-- Exactly the well-posed models pass the check. -/
theorem exists_validate_iff {model : Model Float} :
    (∃ p, model.validate = .ok p) ↔ model.WellPosed := by
  calc
    (∃ p, model.validate = .ok p) ↔ model.defect? = none := by
      constructor
      · rintro ⟨p, hp⟩
        exact (Model.validate_eq_ok_iff.1 hp).1
      · exact fun h ↦ ⟨_, Model.validate_of_defect?_eq_none h⟩
    _ ↔ model.WellPosed := by
      rw [Model.defect?_eq_none_iff]
      simp only [Binary64.isFinite_eq, boundDefect?_eq_none_iff_startable]
      constructor
      · rintro ⟨hshaped, hA, hb, hc, hbounds⟩
        exact { hshaped with coefficient := hA, rightSide := hb, cost := hc, bounds := hbounds }
      · exact fun h ↦ ⟨h.toShaped, h.coefficient, h.rightSide, h.cost, h.bounds⟩

/-! ## Starting values -/

section Start

variable {α : Type} [Arithmetic α]

/-- The value and the standing of a variable that starts at the bound of least magnitude, or at the
upper one if neither is nearer to zero. -/
inductive StartsNearest (lower upper : α) : α → Standing → Prop where
  | lower (hfinite : isFinite lower = true) (hless : magnitude lower < magnitude upper) :
      StartsNearest lower upper lower .atLower
  | upper (hfinite : isFinite upper = true) (hle : magnitude upper ≤ magnitude lower) :
      StartsNearest lower upper upper .atUpper

/-- Every structural variable of a model starts nearest to zero. -/
def Model.StartsNearest (model : Model α) (t : Tableau α model.m model.n) : Prop :=
  ∀ j : Fin model.n, ∃ lower upper,
    model.lower[j.val]? = some lower ∧ model.upper[j.val]? = some upper ∧
      MixedInteger.StartsNearest lower upper (t.value.get (.structural j))
        (t.standing.get (.structural j))

theorem start_startsNearest {m n : ℕ} {p : Program α m n} {j : Fin n}
    (hlower : magnitude (p.lower.get j) < magnitude (p.upper.get j) →
      isFinite (p.lower.get j) = true)
    (hupper : ¬ magnitude (p.lower.get j) < magnitude (p.upper.get j) →
      isFinite (p.upper.get j) = true ∧ magnitude (p.upper.get j) ≤ magnitude (p.lower.get j)) :
    StartsNearest (p.lower.get j) (p.upper.get j)
      ((Tableau.start p).value.get (.structural j))
      ((Tableau.start p).standing.get (.structural j)) := by
  have hvalue : (Tableau.start p).value.get (.structural j) = startValue p j :=
    vector_get_ofFn _ _
  have hstanding : (Tableau.start p).standing.get (.structural j) = startStanding p j :=
    vector_get_ofFn _ _
  rw [hvalue, hstanding, startValue, startStanding]
  by_cases h : magnitude (p.lower.get j) < magnitude (p.upper.get j)
  · rw [startsAtLower, decide_eq_true h, if_pos rfl, if_pos rfl]
    exact .lower (hlower h) h
  · rw [startsAtLower, decide_eq_false h, if_neg Bool.false_ne_true, if_neg Bool.false_ne_true]
    exact .upper (hupper h).1 (hupper h).2

end Start

/-! ### In floating point -/

namespace Startable

variable {lower upper : Float} (h : Startable lower upper)

include h

/-- An infinite lower bound is not nearer to zero than the upper one. -/
theorem finite_lower (hless : magnitude lower < magnitude upper) : isFinite lower = true := by
  rw [Binary64.isFinite_eq]
  by_contra hinfinite
  change lower.abs < upper.abs at hless
  rw [Binary64.abs_of_not_finite h.lower_defined hinfinite] at hless
  exact Binary64.not_infinity_lt _ hless

/-- An upper bound is nearer to zero than the lower one, or as near, if the lower one is not; and
then it is finite, because one of them is. -/
theorem finite_upper (hnot : ¬ magnitude lower < magnitude upper) :
    isFinite upper = true ∧ magnitude upper ≤ magnitude lower := by
  have hle : upper.abs ≤ lower.abs := by
    rw [← Binary64.not_lt]
    · exact hnot
    · rw [Binary64.isNaN_abs, h.lower_defined]
    · rw [Binary64.isNaN_abs, h.upper_defined]
  refine ⟨?_, hle⟩
  rw [Binary64.isFinite_eq]
  by_contra hinfinite
  rw [Binary64.abs_of_not_finite h.upper_defined hinfinite, Binary64.infinity_le_iff] at hle
  have hlower : lower.isFinite = false := by
    rw [← Binary64.isFinite_abs, hle]
    rfl
  rcases h.finite with hfinite | hfinite
  · exact Bool.false_ne_true (hlower.symm.trans hfinite)
  · exact hinfinite hfinite

end Startable

/-- Accepted floating-point models start nearest to zero. -/
theorem startsNearest_of_validate {model : Model Float} {p : Program Float model.m model.n}
    (h : model.validate = .ok p) : model.StartsNearest (Tableau.start p) := by
  have hposed := exists_validate_iff.1 ⟨p, h⟩
  obtain ⟨hdefect, rfl⟩ := Model.validate_eq_ok_iff.1 h
  intro j
  have hlower := Model.getElem?_lower hposed.toShaped j
  have hupper := Model.getElem?_upper hposed.toShaped j
  have hstartable := hposed.bounds j _ _ hlower hupper
  exact ⟨_, _, hlower, hupper, start_startsNearest hstartable.finite_lower hstartable.finite_upper⟩

/-! ### In exact arithmetic -/

namespace Program.Box

variable {lower upper : ExtendedRational} (h : Program.Box lower upper)

include h

theorem finite_lower (hless : Arithmetic.magnitude lower < Arithmetic.magnitude upper) :
    isFinite lower = true := by
  cases h with
  | between l u => rfl
  | above l => rfl
  | below u => cases hless

theorem finite_upper (hnot : ¬ Arithmetic.magnitude lower < Arithmetic.magnitude upper) :
    isFinite upper = true ∧ Arithmetic.magnitude upper ≤ Arithmetic.magnitude lower := by
  cases h with
  | between l u =>
    rw [magnitude_finite, magnitude_finite, finite_lt, not_lt] at hnot
    rw [magnitude_finite, magnitude_finite, finite_le]
    exact ⟨rfl, hnot⟩
  | above l => exact absurd rfl hnot
  | below u => exact ⟨rfl, rfl⟩

end Program.Box

/-- Accepted rational models start nearest to zero. -/
theorem exact_startsNearest_of_validate {model : Model ExtendedRational}
    {p : Program ExtendedRational model.m model.n} (h : model.validate = .ok p) :
    model.StartsNearest (Tableau.start p) := by
  have hp := Model.valid_of_validate h
  obtain ⟨hdefect, rfl⟩ := Model.validate_eq_ok_iff.1 h
  intro j
  have shaped := Model.shaped_of_defect?_eq_none hdefect
  exact ⟨_, _, Model.getElem?_lower shaped j, Model.getElem?_upper shaped j,
    start_startsNearest (hp.box j).finite_lower (hp.box j).finite_upper⟩

/-- In exact arithmetic an artificial variable starts at what the structural ones leave of the
right-hand side of its row, without the sign. -/
theorem artificial_start {m n : ℕ} {p : Program ExtendedRational m n} (hp : p.Admissible)
    (i : Fin m) :
    (Tableau.start p).value.get (.artificial i) =
      finite |p.rightSide i - (p.matrix *ᵥ startPoint p) i| :=
  Tableau.start_value hp (.artificial i)

/-- The check of a model accepts exactly the well-posed ones, and it accepts nothing that cannot be
started: structural variables start at a finite bound of least magnitude, and in exact arithmetic
artificial variables start at the magnitudes of the residuals. -/
theorem accepts_startable :
    (∀ model : Model Float, (∃ p, model.validate = .ok p) ↔ model.WellPosed) ∧
    (∀ (model : Model Float) (p : Program Float model.m model.n),
      model.validate = .ok p → model.StartsNearest (Tableau.start p)) ∧
    ∀ (model : Model ExtendedRational) (p : Program ExtendedRational model.m model.n),
      model.validate = .ok p →
      model.StartsNearest (Tableau.start p) ∧
      ∃ x : Fin model.n → ℚ,
        (∀ j, (Tableau.start p).value.get (.structural j) = finite (x j)) ∧
        ∀ i, (Tableau.start p).value.get (.artificial i) =
          finite |p.rightSide i - (p.matrix *ᵥ x) i| := by
  refine ⟨fun _ ↦ exists_validate_iff, fun _ _ ↦ startsNearest_of_validate, fun model p h ↦ ?_⟩
  have hp := (Model.valid_of_validate h).toAdmissible
  exact ⟨exact_startsNearest_of_validate h, startPoint p,
    fun j ↦ Tableau.start_value hp (.structural j), artificial_start hp⟩

/-- One variable whose bounds have the same magnitude, two with one bound each, and one that is
fixed. -/
def corners {α : Type} [Arithmetic α] (number : ℤ → α) : Model α :=
  (Model.ofRows [[1, 2, 1, 0].map number, [1, -1, 0, 1].map number] ([1, -7].map number)
    ([0, 0, 0, 1].map number)).boundedBy
      [number (-2), number 1, -infinity, number 0] [number 2, infinity, number (-3), number 0]

/-- The corners are accepted in both kinds of numbers.  Only the variable without an upper bound
starts at its lower one; the second row is left with a negative residual. -/
theorem corners_start :
    (∃ p, (corners Float.ofInt).validate = .ok p ∧
      (corners Float.ofInt).StartsNearest (Tableau.start p) ∧
      (Tableau.start p).standing.structural.toList = [.atUpper, .atLower, .atUpper, .atUpper]) ∧
    ∃ p, (corners fun k ↦ finite k).validate = .ok p ∧
      (corners fun k ↦ finite k).StartsNearest (Tableau.start p) ∧
      (Tableau.start p).value.artificial.toList = [finite 0, finite 8] := by
  have hfloats := Model.validate_of_defect?_eq_none
    (show (corners Float.ofInt).defect? = none by decide)
  have hexact := Model.validate_of_defect?_eq_none
    (show (corners fun k ↦ finite k).defect? = none by decide)
  constructor
  · exact ⟨_, hfloats, accepts_startable.2.1 _ _ hfloats, by decide⟩
  · exact ⟨_, hexact, (accepts_startable.2.2 _ _ hexact).1, by with_unfolding_all decide⟩

end MixedInteger
