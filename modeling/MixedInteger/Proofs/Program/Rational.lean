import Mathlib.Data.Matrix.Mul
import Mathlib.Tactic.SplitIfs
import MixedInteger.Model.Validity
import MixedInteger.Proofs.Exact.Rational

/-!
# Rational programs

A program in exact arithmetic read as a matrix, two vectors and a box over the rational numbers.
Only bounds may be infinite.  A program is admissible when each of its variables has a finite bound
to start from, whether or not its bounds cross, and valid when they do not cross either.  A model
that passes its own check states a valid program.
-/

open Matrix

namespace MixedInteger

open Arithmetic ExtendedRational

namespace Program

variable {m n : ℕ}

/-! ## Rational data -/

/-- The coefficients of a program. -/
def matrix (p : Program ExtendedRational m n) : Matrix (Fin m) (Fin n) ℚ :=
  fun i j ↦ (p.coefficient i j).rational

/-- The right-hand sides of a program. -/
def rightSide (p : Program ExtendedRational m n) (i : Fin m) : ℚ :=
  (p.b.get i).rational

/-- The costs of a program. -/
def costs (p : Program ExtendedRational m n) (j : Fin n) : ℚ :=
  (p.c.get j).rational

/-- A point that satisfies all rows and bounds. -/
structure Feasible (p : Program ExtendedRational m n) (y : Fin n → ℚ) : Prop where
  rows : p.matrix *ᵥ y = p.rightSide
  lower : ∀ j, p.lower.get j ≤ finite (y j)
  upper : ∀ j, finite (y j) ≤ p.upper.get j

/-- The box of a variable: its bounds are rational, except that one of them may be absent. -/
inductive Box : ExtendedRational → ExtendedRational → Prop where
  | between (l u : ℚ) : Box (finite l) (finite u)
  | above (l : ℚ) : Box (finite l) positiveInfinity
  | below (u : ℚ) : Box negativeInfinity (finite u)

theorem Box.upper_eq {lower upper : ExtendedRational} (h : Box lower upper)
    (hupper : ¬ isFinite upper = true) : upper = positiveInfinity := by
  cases h with
  | above l => rfl
  | _ => exact absurd (isFinite_iff.2 ⟨_, rfl⟩) hupper

theorem Box.lower_eq {lower upper : ExtendedRational} (h : Box lower upper)
    (hlower : ¬ isFinite lower = true) : lower = negativeInfinity := by
  cases h with
  | below u => rfl
  | _ => exact absurd (isFinite_iff.2 ⟨_, rfl⟩) hlower

/-- Data are rational, and every variable has a finite bound. -/
structure Admissible (p : Program ExtendedRational m n) : Prop where
  coefficient : ∀ i j, p.coefficient i j = finite (p.matrix i j)
  rightSide : ∀ i, p.b.get i = finite (p.rightSide i)
  cost : ∀ j, p.c.get j = finite (p.costs j)
  box : ∀ j, Box (p.lower.get j) (p.upper.get j)

/-- No variable has a box whose width lies strictly between zero and `τ`. -/
def WidthsApart (p : Program ExtendedRational m n) (τ : ℚ) : Prop :=
  ∀ j, ¬ (0 < p.upper.get j - p.lower.get j ∧ p.upper.get j - p.lower.get j < finite τ)

/-- An admissible program whose bounds do not cross. -/
structure Valid (p : Program ExtendedRational m n) : Prop extends Admissible p where
  ordered : ∀ j, p.lower.get j ≤ p.upper.get j

theorem Admissible.cost_ofFn {p : Program ExtendedRational m n} (h : p.Admissible)
    {x : Vector ExtendedRational n} {y : Fin n → ℚ} (hx : ∀ j, x.get j = finite (y j)) :
    p.cost x = finite (p.costs ⬝ᵥ y) := by
  unfold Program.cost
  simp only [h.cost, hx, finite_mul]
  exact sum_finite _

end Program

/-! ## Programs of models -/

theorem eq_finite_rational {a : ExtendedRational} (h : isFinite a = true) :
    a = finite a.rational := by
  obtain ⟨q, rfl⟩ := isFinite_iff.1 h
  rfl

namespace Model

open Program

/-- The check of two bounds lets exactly the uncrossed boxes pass. -/
theorem boundDefect?_eq_none_iff {lower upper : ExtendedRational} {j : ℕ} :
    boundDefect? lower upper j = none ↔ Box lower upper ∧ lower ≤ upper := by
  unfold boundDefect?
  simp only [Bool.or_eq_true, Bool.and_eq_true, isUndefined_iff, isInfinite_iff, infinity_le_iff,
    le_neg_infinity_iff]
  constructor
  · intro h
    split_ifs at h with hundefined hside hcrossed hfree
    cases lower with
    | finite l =>
      cases upper with
      | finite u => exact ⟨.between l u, finite_le.2 (by simpa using hcrossed)⟩
      | positiveInfinity => exact ⟨.above l, finite_le_infinity l⟩
      | undefined => simp at hundefined
      | negativeInfinity => simp at hside
    | negativeInfinity =>
      cases upper with
      | finite u => exact ⟨.below u, negativeInfinity_le_finite u⟩
      | positiveInfinity => simp at hfree
      | undefined => simp at hundefined
      | negativeInfinity => simp at hside
    | undefined => simp at hundefined
    | positiveInfinity => simp at hside
  · rintro ⟨hbox, hordered⟩
    cases hbox <;> simp [not_lt_of_le hordered]

variable {model : Model ExtendedRational}

theorem program_row_toList (shaped : model.Shaped) (i : Fin model.m) :
    ((model.program shaped).A.get i).toList =
      model.A.get ⟨i.val, by rw [shaped.rows]; exact i.isLt⟩ := by
  unfold program Vector.get
  simp

theorem program_coefficient_mem (shaped : model.Shaped) (i : Fin model.m) (j : Fin model.n) :
    ∃ row ∈ model.A, (model.program shaped).coefficient i j ∈ row := by
  refine ⟨_, List.get_mem model.A ⟨i.val, by rw [shaped.rows]; exact i.isLt⟩, ?_⟩
  rw [← program_row_toList shaped i, Vector.mem_toList_iff]
  exact Vector.getElem_mem j.isLt

/-- A model that passes its check states a valid program. -/
theorem valid_of_validate {p : Program ExtendedRational model.m model.n}
    (h : model.validate = .ok p) : p.Valid := by
  obtain ⟨hdefect, rfl⟩ := validate_eq_ok_iff.1 h
  obtain ⟨shaped, hA, hb, hc, hbounds⟩ := defect?_eq_none_iff.1 hdefect
  have hbox (j : Fin model.n) :
      Box ((model.program shaped).lower.get j) ((model.program shaped).upper.get j) ∧
        (model.program shaped).lower.get j ≤ (model.program shaped).upper.get j :=
    boundDefect?_eq_none_iff.1
      (hbounds j.val _ _ (getElem?_lower shaped j) (getElem?_upper shaped j))
  exact
    { coefficient := fun i j ↦ by
        obtain ⟨row, hrow, hentry⟩ := program_coefficient_mem shaped i j
        exact eq_finite_rational (hA row hrow _ hentry)
      rightSide := fun i ↦ eq_finite_rational (hb _ (List.getElem_mem _))
      cost := fun j ↦ eq_finite_rational (hc _ (List.getElem_mem _))
      box := fun j ↦ (hbox j).1
      ordered := fun j ↦ (hbox j).2 }

end Model

end MixedInteger
