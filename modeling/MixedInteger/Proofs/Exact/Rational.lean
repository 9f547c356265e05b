import Mathlib.Algebra.BigOperators.Fin
import Mathlib.Algebra.Order.Field.Rat
import Mathlib.Data.Rat.Floor
import Mathlib.Tactic.Linarith
import Mathlib.Tactic.Positivity
import Mathlib.Tactic.Ring
import MixedInteger.Arithmetic.Exact

/-!
# Exact arithmetic on rational values

On finite values the operations of exact arithmetic are those of the rational numbers, and an
ordered sum is a sum over all indices. The infinities only enter as bounds, so besides these
computation rules a few facts about differences and quotients with one infinite operand suffice.
The order is total on the values that are defined, and the undefined value is beside it.
-/

open scoped BigOperators

namespace MixedInteger

namespace ExtendedRational

open Arithmetic

/-- The rational number that a finite value is, and zero for any other value. -/
def rational : ExtendedRational → ℚ
  | finite q => q
  | _ => 0

@[simp]
theorem rational_finite (q : ℚ) : (finite q).rational = q := rfl

/-! ## Finite operands -/

theorem zero_eq_finite : (0 : ExtendedRational) = finite 0 := rfl

theorem one_eq_finite : (1 : ExtendedRational) = finite 1 := rfl

@[simp]
theorem finite_add (p q : ℚ) : finite p + finite q = finite (p + q) := rfl

@[simp]
theorem neg_finite (q : ℚ) : -finite q = finite (-q) := rfl

@[simp]
theorem finite_sub (p q : ℚ) : finite p - finite q = finite (p - q) := by
  rw [sub_eq_add_neg]
  rfl

@[simp]
theorem finite_mul (p q : ℚ) : finite p * finite q = finite (p * q) := rfl

theorem finite_div (p : ℚ) {q : ℚ} (hq : q ≠ 0) : finite p / finite q = finite (p / q) :=
  if_neg hq

@[simp]
theorem finite_lt {p q : ℚ} : finite p < finite q ↔ p < q :=
  decide_eq_true_iff

@[simp]
theorem finite_le {p q : ℚ} : finite p ≤ finite q ↔ p ≤ q :=
  decide_eq_true_iff

@[simp]
theorem magnitude_finite (q : ℚ) : Arithmetic.magnitude (finite q) = finite |q| := by
  change finite (if q < 0 then -q else q) = _
  split_ifs with h
  · rw [abs_of_neg h]
  · rw [abs_of_nonneg (not_lt.1 h)]

@[simp]
theorem floor_finite (q : ℚ) : Arithmetic.floor (finite q) = finite ⌊q⌋ := rfl

@[simp]
theorem ceil_finite (q : ℚ) : Arithmetic.ceil (finite q) = finite ⌈q⌉ := by
  have hceil : ⌈q⌉ = q.ceil := (Rat.ceil_eq_neg_floor_neg q).symm
  rw [hceil]
  rfl

theorem isUndefined_finite (q : ℚ) : isUndefined (finite q) = false := by
  rw [isUndefined, decide_eq_true (finite_le.2 le_rfl)]
  rfl

@[simp]
theorem lesser_finite (p q : ℚ) : lesser (finite p) (finite q) = finite (min p q) := by
  unfold lesser
  simp only [isUndefined_finite, Bool.false_eq_true, if_false, finite_lt]
  split_ifs with h
  · rw [min_eq_right h.le]
  · rw [min_eq_left (not_lt.1 h)]

/-- An ordered sum of rational numbers is their sum in any order. -/
theorem sum_finite {k : ℕ} (term : Fin k → ℚ) :
    (sum fun i ↦ finite (term i)) = finite (∑ i, term i) := by
  induction k with
  | zero => simp [emptySum, zero_eq_finite]
  | succ k ih => rw [sum_succ, Fin.sum_univ_castSucc, ih, finite_add]

/-! ## Infinite operands -/

theorem infinity_le_iff {a : ExtendedRational} : infinity ≤ a ↔ a = positiveInfinity := by
  cases a with
  | positiveInfinity => exact iff_of_true rfl rfl
  | _ => exact iff_of_false Bool.false_ne_true nofun

theorem isFinite_iff {a : ExtendedRational} : isFinite a = true ↔ ∃ q, a = finite q := by
  cases a with
  | finite q => exact iff_of_true rfl ⟨q, rfl⟩
  | _ => exact iff_of_false (by decide) (by simp)

theorem le_neg_infinity_iff {a : ExtendedRational} : a ≤ -infinity ↔ a = negativeInfinity := by
  cases a with
  | negativeInfinity => exact iff_of_true rfl rfl
  | _ => exact iff_of_false Bool.false_ne_true nofun

theorem isInfinite_iff {a : ExtendedRational} :
    isInfinite a = true ↔ a = negativeInfinity ∨ a = positiveInfinity := by
  rw [isInfinite, Bool.or_eq_true, decide_eq_true_eq, decide_eq_true_eq, le_neg_infinity_iff,
    infinity_le_iff]

theorem finite_le_infinity (q : ℚ) : finite q ≤ positiveInfinity := rfl

theorem negativeInfinity_le_finite (q : ℚ) : negativeInfinity ≤ finite q := rfl

theorem finite_sub_infinity (q : ℚ) : finite q - positiveInfinity = negativeInfinity := rfl

theorem finite_sub_negativeInfinity (q : ℚ) :
    finite q - negativeInfinity = positiveInfinity := rfl

theorem infinity_sub_finite (q : ℚ) : positiveInfinity - finite q = positiveInfinity := rfl

theorem infinity_div_pos {q : ℚ} (hq : 0 < q) : positiveInfinity / finite q = positiveInfinity :=
  if_neg (not_lt.2 hq.le)

theorem negativeInfinity_div_neg {q : ℚ} (hq : q < 0) :
    negativeInfinity / finite q = positiveInfinity :=
  if_pos hq

/-! ## The order -/

/-- The place of a value in a linear order, if the value is defined. -/
def place : ExtendedRational → WithBot (WithTop ℚ)
  | finite q => (q : WithTop ℚ)
  | positiveInfinity => ⊤
  | _ => ⊥

theorem le_iff {a b : ExtendedRational} :
    a ≤ b ↔ a ≠ undefined ∧ b ≠ undefined ∧ a.place ≤ b.place := by
  change precedesOrEquals a b = true ↔ _
  cases a <;> cases b <;> simp [precedesOrEquals, place]

theorem lt_iff {a b : ExtendedRational} :
    a < b ↔ a ≠ undefined ∧ b ≠ undefined ∧ a.place < b.place := by
  have htop (q : ℚ) : ((q : WithTop ℚ) : WithBot (WithTop ℚ)) < ⊤ :=
    WithBot.coe_lt_coe.2 (WithTop.coe_lt_top q)
  change precedes a b = true ↔ _
  cases a <;> cases b <;> simp [precedes, place, htop]

theorem le_refl_of_defined {a : ExtendedRational} (h : a ≠ undefined) : a ≤ a :=
  le_iff.2 ⟨h, h, le_rfl⟩

theorem isUndefined_iff {a : ExtendedRational} : isUndefined a = true ↔ a = undefined := by
  rw [isUndefined, Bool.not_eq_true', decide_eq_false_iff_not, not_iff_comm]
  refine ⟨le_refl_of_defined, ?_⟩
  rintro h rfl
  cases h

theorem not_lt_of_le {a b : ExtendedRational} (h : a ≤ b) : ¬ b < a := by
  intro hlt
  exact (le_iff.1 h).2.2.not_gt (lt_iff.1 hlt).2.2

theorem le_of_not_le {a b : ExtendedRational} (ha : a ≠ undefined) (hb : b ≠ undefined)
    (h : ¬ a ≤ b) : b ≤ a :=
  le_iff.2 ⟨hb, ha, le_of_not_ge fun hle ↦ h (le_iff.2 ⟨ha, hb, hle⟩)⟩

protected theorem lt_of_not_le {a b : ExtendedRational} (ha : a ≠ undefined) (hb : b ≠ undefined)
    (h : ¬ a ≤ b) : b < a :=
  lt_iff.2 ⟨hb, ha, lt_of_not_ge fun hle ↦ h (le_iff.2 ⟨ha, hb, hle⟩)⟩

protected theorem le_of_not_lt {a b : ExtendedRational} (ha : a ≠ undefined) (hb : b ≠ undefined)
    (h : ¬ a < b) : b ≤ a :=
  le_iff.2 ⟨hb, ha, le_of_not_gt fun hlt ↦ h (lt_iff.2 ⟨ha, hb, hlt⟩)⟩

protected theorem le_of_lt {a b : ExtendedRational} (h : a < b) : a ≤ b := by
  obtain ⟨ha, hb, hlt⟩ := lt_iff.1 h
  exact le_iff.2 ⟨ha, hb, hlt.le⟩

protected theorem le_trans {a b c : ExtendedRational} (hab : a ≤ b) (hbc : b ≤ c) : a ≤ c := by
  obtain ⟨ha, -, hle⟩ := le_iff.1 hab
  obtain ⟨-, hc, hle'⟩ := le_iff.1 hbc
  exact le_iff.2 ⟨ha, hc, hle.trans hle'⟩

protected theorem lt_trans {a b c : ExtendedRational} (hab : a < b) (hbc : b < c) : a < c := by
  obtain ⟨ha, -, hlt⟩ := lt_iff.1 hab
  obtain ⟨-, hc, hlt'⟩ := lt_iff.1 hbc
  exact lt_iff.2 ⟨ha, hc, hlt.trans hlt'⟩

/-! ## Constant rates -/

/-- What falls at a constant rate falls below any number. -/
theorem exists_add_mul_lt {slope : ℚ} (hslope : slope < 0) (x bound : ℚ) :
    ∃ ρ, 0 ≤ ρ ∧ x + ρ * slope < bound := by
  refine ⟨(|x - bound| + 1) / -slope, div_nonneg (by positivity) (neg_nonneg.2 hslope.le), ?_⟩
  rw [div_neg, neg_mul, div_mul_cancel₀ _ hslope.ne]
  have habs := le_abs_self (x - bound)
  linarith

end ExtendedRational

end MixedInteger
