import Mathlib.Order.Bounds.Basic
import MixedInteger.Proofs.Simplex.Limit

/-!
# The longest step

With tolerance zero the ratio test overlooks no variable that moves.  In any tableau whose basic
values are within their bounds, for any rational column and any variable that stands at one of its
bounds, a step of nonnegative length keeps all variables within their bounds exactly if it is no
longer than the one that the ratio test finds.  So that step is the greatest one, or infinite if
none is too long; and a finite one takes the variable that limits it exactly onto a bound.

Nothing is asked of the other variables, and a basic variable may be without any bound.
-/

namespace MixedInteger

namespace Simplex

open Arithmetic ExtendedRational Tableau

variable {m n : ℕ}

/-! ## Ratios of values within bounds -/

/-- A value within the bounds of a variable. -/
def Between (lower upper : ExtendedRational) (x : ℚ) : Prop :=
  lower ≤ finite x ∧ finite x ≤ upper

theorem upper_cases {upper : ExtendedRational} {x : ℚ} (h : finite x ≤ upper) :
    upper = positiveInfinity ∨ ∃ u, upper = finite u := by
  cases upper with
  | positiveInfinity => exact .inl rfl
  | finite u => exact .inr ⟨u, rfl⟩
  | _ => cases h

theorem lower_cases {lower : ExtendedRational} {x : ℚ} (h : lower ≤ finite x) :
    lower = negativeInfinity ∨ ∃ l, lower = finite l := by
  cases lower with
  | negativeInfinity => exact .inl rfl
  | finite l => exact .inr ⟨l, rfl⟩
  | _ => cases h

section Ratios

variable {lower upper : ExtendedRational} {x a ρ : ℚ}

/-- A rising variable stays below its upper bound for the time of its ratio. -/
theorem le_upperRatio_iff (hx : finite x ≤ upper) (ha : a < 0) :
    finite ρ ≤ (finite x - upper) / finite a ↔ finite (x - ρ * a) ≤ upper := by
  rcases upper_cases hx with rfl | ⟨u, rfl⟩
  · rw [finite_sub_infinity, negativeInfinity_div_neg ha]
    exact iff_of_true (finite_le_infinity ρ) (finite_le_infinity _)
  · rw [finite_sub, finite_div _ ha.ne, finite_le, finite_le, le_div_iff_of_neg ha]
    exact sub_le_comm

/-- A falling variable stays above its lower bound for the time of its ratio. -/
theorem le_lowerRatio_iff (hx : lower ≤ finite x) (ha : 0 < a) :
    finite ρ ≤ (finite x - lower) / finite a ↔ lower ≤ finite (x - ρ * a) := by
  rcases lower_cases hx with rfl | ⟨l, rfl⟩
  · rw [finite_sub_negativeInfinity, infinity_div_pos ha]
    exact iff_of_true (finite_le_infinity ρ) (negativeInfinity_le_finite _)
  · rw [finite_sub, finite_div _ ha.ne', finite_le, finite_le, le_div_iff₀ ha]
    exact le_sub_comm

theorem upperRatio_defined (hx : finite x ≤ upper) (ha : a < 0) :
    (finite x - upper) / finite a ≠ undefined := by
  apply div_finite_ne_undefined _ ha.ne
  rcases upper_cases hx with rfl | ⟨u, rfl⟩ <;> exact ExtendedRational.noConfusion

theorem lowerRatio_defined (hx : lower ≤ finite x) (ha : 0 < a) :
    (finite x - lower) / finite a ≠ undefined := by
  apply div_finite_ne_undefined _ ha.ne'
  rcases lower_cases hx with rfl | ⟨l, rfl⟩ <;> exact ExtendedRational.noConfusion

/-- At its finite ratio a rising variable is on its upper bound. -/
theorem lands_of_upperRatio (hx : finite x ≤ upper) (ha : a < 0)
    (h : (finite x - upper) / finite a = finite ρ) : finite (x - ρ * a) = upper := by
  rcases upper_cases hx with rfl | ⟨u, rfl⟩
  · rw [finite_sub_infinity, negativeInfinity_div_neg ha] at h
    cases h
  · rw [finite_sub, finite_div _ ha.ne, finite.injEq] at h
    rw [← h, div_mul_cancel₀ _ ha.ne, sub_sub_cancel]

/-- At its finite ratio a falling variable is on its lower bound. -/
theorem lands_of_lowerRatio (hx : lower ≤ finite x) (ha : 0 < a)
    (h : (finite x - lower) / finite a = finite ρ) : finite (x - ρ * a) = lower := by
  rcases lower_cases hx with rfl | ⟨l, rfl⟩
  · rw [finite_sub_negativeInfinity, infinity_div_pos ha] at h
    cases h
  · rw [finite_sub, finite_div _ ha.ne', finite.injEq] at h
    rw [← h, div_mul_cancel₀ _ ha.ne', sub_sub_cancel]

/-- Within its bounds, a variable that does not fall meets no lower bound. -/
theorem Between.lower_of_nonpos (hx : Between lower upper x) (hρ : 0 ≤ ρ) (ha : a ≤ 0) :
    lower ≤ finite (x - ρ * a) := by
  have hgrows : x ≤ x - ρ * a := by
    have hchange := mul_nonpos_of_nonneg_of_nonpos hρ ha
    linarith
  exact ExtendedRational.le_trans hx.1 (finite_le.2 hgrows)

/-- Within its bounds, a variable that does not rise meets no upper bound. -/
theorem Between.upper_of_nonneg (hx : Between lower upper x) (hρ : 0 ≤ ρ) (ha : 0 ≤ a) :
    finite (x - ρ * a) ≤ upper := by
  have hshrinks : x - ρ * a ≤ x := by
    have hchange := mul_nonneg hρ ha
    linarith
  exact ExtendedRational.le_trans (finite_le.2 hshrinks) hx.2

end Ratios

/-! ## One row -/

namespace Limit

variable {limit : Limit ExtendedRational m} {lower upper ratio : ExtendedRational} {x a ρ : ℚ}

theorem le_shorten_step_iff (hlimit : limit.step ≠ undefined) (hratio : ratio ≠ undefined)
    (i : Fin m) :
    finite ρ ≤ (limit.shorten i ratio).step ↔ finite ρ ≤ limit.step ∧ finite ρ ≤ ratio := by
  constructor
  · intro h
    exact ⟨ExtendedRational.le_trans h (shorten_step_le hlimit i),
      ExtendedRational.le_trans h (shorten_step_le_ratio hlimit hratio i)⟩
  · intro h
    unfold shorten
    split_ifs
    · exact h.2
    · exact h.1

/-- A row shortens the step just as much as its basic variable needs to stay within its bounds. -/
theorem le_meet_step_iff (hlimit : limit.step ≠ undefined) (i : Fin m)
    (hx : Between lower upper x) (hρ : 0 ≤ ρ) :
    finite ρ ≤ (limit.meet (finite 0) i lower upper (finite x) (finite a) (finite (-a))).step ↔
      finite ρ ≤ limit.step ∧ Between lower upper (x - ρ * a) := by
  unfold meet Between
  simp only [finite_lt, Left.neg_pos_iff]
  rcases lt_trichotomy a 0 with ha | rfl | ha
  · rw [if_pos ha, if_neg ha.le.not_gt,
      le_shorten_step_iff hlimit (upperRatio_defined hx.2 ha), le_upperRatio_iff hx.2 ha,
      and_iff_right (hx.lower_of_nonpos hρ ha.le)]
  · rw [if_neg (lt_irrefl _), if_neg (lt_irrefl _), mul_zero, sub_zero]
    exact (and_iff_left hx).symm
  · rw [if_neg ha.le.not_gt, if_pos ha,
      le_shorten_step_iff hlimit (lowerRatio_defined hx.1 ha), le_lowerRatio_iff hx.1 ha,
      and_iff_left (hx.upper_of_nonneg hρ ha.le)]

theorem meet_step_defined (hlimit : limit.step ≠ undefined) (i : Fin m)
    (hx : Between lower upper x) :
    (limit.meet (finite 0) i lower upper (finite x) (finite a) (finite (-a))).step ≠
      undefined := by
  unfold meet
  simp only [finite_lt, Left.neg_pos_iff]
  split_ifs with hfalls hrises hrises
  · exact absurd hfalls hrises.le.not_gt
  · exact shorten_step_ne_undefined hlimit (lowerRatio_defined hx.1 hfalls) i
  · exact shorten_step_ne_undefined hlimit (upperRatio_defined hx.2 hrises) i
  · exact hlimit

end Limit

/-! ## All rows -/

variable {t : Tableau ExtendedRational m n} {p : Program ExtendedRational m n} {s : Fin n}
  {column : Vector ExtendedRational m} {ρ : ℚ}

namespace Tableau

/-- The bound away from which a nonbasic variable does not stand. -/
def oppositeBound (t : Tableau ExtendedRational m n) (p : Program ExtendedRational m n)
    (s : Fin n) : ExtendedRational :=
  match t.standing.get (.structural s) with
  | .atLower => p.upper.get s
  | _ => p.lower.get s

/-- A variable that stands at a finite bound, the one that its standing names. -/
inductive StandsAt (t : Tableau ExtendedRational m n) (p : Program ExtendedRational m n)
    (s : Fin n) : Prop where
  | atLower (l : ℚ) (hstanding : t.standing.get (.structural s) = .atLower)
      (hbound : p.lower.get s = finite l) (hvalue : t.value.get (.structural s) = finite l)
  | atUpper (u : ℚ) (hstanding : t.standing.get (.structural s) = .atUpper)
      (hbound : p.upper.get s = finite u) (hvalue : t.value.get (.structural s) = finite u)

/-- What the ratio test for variable `s` along a column may be applied to. -/
structure Poised (t : Tableau ExtendedRational m n) (p : Program ExtendedRational m n)
    (s : Fin n) (column : Vector ExtendedRational m) : Prop where
  column : ∀ i, ∃ a, column.get i = finite a
  basic : ∀ i, ∃ x, t.value.get (t.basis.get i) = finite x ∧
    Between (lowerBound p (t.basis.get i)) (upperBound p (t.basis.get i)) x
  stands : t.StandsAt p s
  ordered : p.lower.get s ≤ p.upper.get s

/-- Where the entering variable is after a step. -/
def entered (t : Tableau ExtendedRational m n) (s : Fin n) (ρ : ℚ) : ℚ :=
  t.point (.structural s) + (t.standing.get (.structural s)).direction * ρ

/-- Where the basic variable of a row is after a step along a column. -/
def followed (t : Tableau ExtendedRational m n) (s : Fin n)
    (column : Vector ExtendedRational m) (ρ : ℚ) (i : Fin m) : ℚ :=
  t.point (t.basis.get i) -
    (t.standing.get (.structural s)).direction * ρ * (column.get i).rational

theorem followed_eq (ρ : ℚ) (i : Fin m) : t.followed s column ρ i = t.point (t.basis.get i) -
    ρ * ((t.standing.get (.structural s)).direction * (column.get i).rational) := by
  unfold followed
  ring

/-- A step after which the entering variable and all basic ones are within their bounds. -/
structure Permits (t : Tableau ExtendedRational m n) (p : Program ExtendedRational m n)
    (s : Fin n) (column : Vector ExtendedRational m) (ρ : ℚ) : Prop where
  entering : Between (p.lower.get s) (p.upper.get s) (t.entered s ρ)
  basic : ∀ i, Between (lowerBound p (t.basis.get i)) (upperBound p (t.basis.get i))
    (t.followed s column ρ i)

/-- A step that takes the variable of the leaving row onto one of its bounds, or, when no row
leaves, the entering variable onto its opposite bound. -/
def Lands (t : Tableau ExtendedRational m n) (p : Program ExtendedRational m n) (s : Fin n)
    (column : Vector ExtendedRational m) (ρ : ℚ) : Option (Fin m) → Prop
  | some r =>
    finite (t.followed s column ρ r) = lowerBound p (t.basis.get r) ∨
      finite (t.followed s column ρ r) = upperBound p (t.basis.get r)
  | none => finite (t.entered s ρ) = t.oppositeBound p s

namespace Poised

variable (h : t.Poised p s column)

include h

theorem rate (i : Fin m) : (t.standing.get (.structural s)).sign * column.get i =
    finite ((t.standing.get (.structural s)).direction * (column.get i).rational) := by
  obtain ⟨a, ha⟩ := h.column i
  rw [ha, Standing.sign_eq, finite_mul, rational_finite]

theorem opposite (i : Fin m) : -(t.standing.get (.structural s)).sign * column.get i =
    finite (-((t.standing.get (.structural s)).direction * (column.get i).rational)) := by
  obtain ⟨a, ha⟩ := h.column i
  rw [ha, Standing.sign_eq, neg_finite, finite_mul, rational_finite, neg_mul]

theorem value (i : Fin m) :
    t.value.get (t.basis.get i) = finite (t.point (t.basis.get i)) := by
  obtain ⟨x, hx, -⟩ := h.basic i
  rw [point, hx, rational_finite]

theorem between (i : Fin m) : Between (lowerBound p (t.basis.get i))
    (upperBound p (t.basis.get i)) (t.point (t.basis.get i)) := by
  obtain ⟨x, hx, hbetween⟩ := h.basic i
  rwa [point, hx, rational_finite]

/-- The entering variable is within its bounds before it moves. -/
theorem entering : Between (p.lower.get s) (p.upper.get s) (t.point (.structural s)) := by
  have hordered := h.ordered
  unfold Between point
  cases h.stands with
  | atLower l hstanding hbound hvalue =>
    rw [hbound] at hordered ⊢
    rw [hvalue]
    exact ⟨finite_le.2 le_rfl, hordered⟩
  | atUpper u hstanding hbound hvalue =>
    rw [hbound] at hordered ⊢
    rw [hvalue]
    exact ⟨hordered, finite_le.2 le_rfl⟩

theorem width_defined : p.upper.get s - p.lower.get s ≠ undefined := by
  cases h.stands with
  | atLower l hstanding hbound hvalue =>
    have hordered := h.ordered
    rw [hbound] at hordered ⊢
    rcases upper_cases hordered with hupper | ⟨u, hupper⟩ <;>
      rw [hupper] <;> exact ExtendedRational.noConfusion
  | atUpper u hstanding hbound hvalue =>
    have hordered := h.ordered
    rw [hbound] at hordered ⊢
    rcases lower_cases hordered with hlower | ⟨l, hlower⟩ <;>
      rw [hlower] <;> exact ExtendedRational.noConfusion

/-- The entering variable stays within its bounds for the width of its box. -/
theorem le_width_iff (hρ : 0 ≤ ρ) : finite ρ ≤ p.upper.get s - p.lower.get s ↔
    Between (p.lower.get s) (p.upper.get s) (t.entered s ρ) := by
  have hordered := h.ordered
  unfold Between entered point
  cases h.stands with
  | atLower l hstanding hbound hvalue =>
    rw [hbound] at hordered
    rw [hstanding, hvalue, hbound, rational_finite, Standing.direction, one_mul,
      and_iff_right (finite_le.2 (le_add_of_nonneg_right hρ))]
    rcases upper_cases hordered with hupper | ⟨u, hupper⟩
    · rw [hupper, infinity_sub_finite]
      exact iff_of_true (finite_le_infinity ρ) (finite_le_infinity _)
    · rw [hupper, finite_sub, finite_le, finite_le]
      exact le_sub_iff_add_le'
  | atUpper u hstanding hbound hvalue =>
    rw [hbound] at hordered
    rw [hstanding, hvalue, hbound, rational_finite, Standing.direction, neg_one_mul,
      ← sub_eq_add_neg, and_iff_left (finite_le.2 (sub_le_self u hρ))]
    rcases lower_cases hordered with hlower | ⟨l, hlower⟩
    · rw [hlower, finite_sub_negativeInfinity]
      exact iff_of_true (finite_le_infinity ρ) (negativeInfinity_le_finite _)
    · rw [hlower, finite_sub, finite_le, finite_le]
      exact le_sub_comm

/-- A way as long as the box takes the entering variable onto its opposite bound. -/
theorem lands_of_width (hwidth : p.upper.get s - p.lower.get s = finite ρ) :
    finite (t.entered s ρ) = t.oppositeBound p s := by
  have hordered := h.ordered
  unfold entered oppositeBound point
  cases h.stands with
  | atLower l hstanding hbound hvalue =>
    rw [hbound] at hordered hwidth
    rw [hstanding, hvalue, rational_finite, Standing.direction, one_mul]
    rcases upper_cases hordered with hupper | ⟨u, hupper⟩
    · rw [hupper] at hwidth
      cases hwidth
    · rw [hupper, finite_sub, finite.injEq] at hwidth
      rw [← hwidth, add_sub_cancel]
      exact hupper.symm
  | atUpper u hstanding hbound hvalue =>
    rw [hbound] at hordered hwidth
    rw [hstanding, hvalue, rational_finite, Standing.direction, neg_one_mul, ← sub_eq_add_neg]
    rcases lower_cases hordered with hlower | ⟨l, hlower⟩
    · rw [hlower] at hwidth
      cases hwidth
    · rw [hlower, finite_sub, finite.injEq] at hwidth
      rw [← hwidth, sub_sub_cancel]
      exact hlower.symm

end Poised

/-- The limit after the first `k` rows: exactly the steps up to it keep the entering variable and
the basic variables of these rows within their bounds. -/
structure Measures (t : Tableau ExtendedRational m n) (p : Program ExtendedRational m n)
    (s : Fin n) (column : Vector ExtendedRational m) (k : ℕ)
    (limit : Limit ExtendedRational m) : Prop where
  defined : limit.step ≠ undefined
  le_step_iff : ∀ ρ, 0 ≤ ρ → (finite ρ ≤ limit.step ↔
    Between (p.lower.get s) (p.upper.get s) (t.entered s ρ) ∧
      ∀ i : Fin m, i.val < k → Between (lowerBound p (t.basis.get i))
        (upperBound p (t.basis.get i)) (t.followed s column ρ i))

theorem limit_measures (h : t.Poised p s column) :
    t.Measures p s column m (t.limit p (finite 0) s column) := by
  refine foldl_induction (t.Measures p s column)
    ⟨h.width_defined, fun ρ hρ ↦ by simp [h.le_width_iff hρ]⟩ ?_
  intro i limit hlimit
  simp only [h.value, h.rate, h.opposite]
  constructor
  · exact limit.meet_step_defined hlimit.defined i (h.between i)
  · intro ρ hρ
    rw [limit.le_meet_step_iff hlimit.defined i (h.between i) hρ, hlimit.le_step_iff ρ hρ,
      and_assoc, ← followed_eq]
    apply and_congr_right
    intro _
    constructor
    · rintro ⟨hbefore, hlast⟩ k hk
      rcases Nat.lt_succ_iff_lt_or_eq.1 hk with hlt | heq
      · exact hbefore k hlt
      · obtain rfl : k = i := Fin.ext heq
        exact hlast
    · intro hall
      exact ⟨fun k hk ↦ hall k (Nat.lt_succ_of_lt hk), hall i (Nat.lt_succ_self _)⟩

/-- The steps that keep all variables within their bounds are those up to that of the ratio
test. -/
theorem le_limit_step_iff (h : t.Poised p s column) (hρ : 0 ≤ ρ) :
    finite ρ ≤ (t.limit p (finite 0) s column).step ↔ t.Permits p s column ρ := by
  rw [(limit_measures h).le_step_iff ρ hρ]
  constructor
  · exact fun hall ↦ ⟨hall.1, fun i ↦ hall.2 i i.isLt⟩
  · exact fun hall ↦ ⟨hall.entering, fun i _ ↦ hall.basic i⟩

/-- To stay where one is is permitted. -/
theorem Poised.permits_zero (h : t.Poised p s column) : t.Permits p s column 0 where
  entering := by
    rw [entered, mul_zero, add_zero]
    exact h.entering
  basic i := by
    rw [followed_eq, zero_mul, sub_zero]
    exact h.between i

/-- A finite step of the ratio test is one at which a variable lands. -/
theorem Candidate.lands {limit : Limit ExtendedRational m} (h : t.Poised p s column)
    (hcandidate : t.Candidate p (finite 0) s column limit) (hstep : limit.step = finite ρ) :
    t.Lands p s column ρ limit.leaving := by
  cases hcandidate with
  | crossing => exact h.lands_of_width hstep
  | rising r hrate =>
    rw [h.opposite, finite_lt, Left.neg_pos_iff] at hrate
    dsimp only [upperRatio] at hstep
    rw [h.value, h.rate] at hstep
    apply Or.inr
    rw [followed_eq]
    exact lands_of_upperRatio (h.between r).2 hrate hstep
  | falling r hrate =>
    rw [h.rate, finite_lt] at hrate
    dsimp only [lowerRatio] at hstep
    rw [h.value, h.rate] at hstep
    apply Or.inl
    rw [followed_eq]
    exact lands_of_lowerRatio (h.between r).1 hrate hstep

end Tableau

/-! ## The step of the ratio test -/

/-- In a tableau within its bounds, for a variable that stands at one of its own, the ratio test
with tolerance zero finds the greatest step that keeps all these variables within their bounds.
It is infinite exactly if no step is too long.  A finite one takes the variable of the leaving row
onto one of its bounds, or the entering variable onto its opposite one. -/
theorem limit_longest (h : t.Poised p s column) :
    ((t.limit p (finite 0) s column).step = positiveInfinity ↔
      ∀ ρ, 0 ≤ ρ → t.Permits p s column ρ) ∧
    ((t.limit p (finite 0) s column).step ≠ positiveInfinity →
      ∃ ρ, (t.limit p (finite 0) s column).step = finite ρ ∧
        IsGreatest {ρ | 0 ≤ ρ ∧ t.Permits p s column ρ} ρ ∧
        t.Lands p s column ρ (t.limit p (finite 0) s column).leaving) := by
  have hdefined := (limit_measures h).defined
  have hcandidate := limit_candidate t p (finite 0) s column
  have hpermits (ρ : ℚ) (hρ : 0 ≤ ρ) := le_limit_step_iff h hρ
  have hstart := (hpermits 0 le_rfl).2 h.permits_zero
  generalize t.limit p (finite 0) s column = limit at *
  cases hstep : limit.step with
  | undefined => exact absurd hstep hdefined
  | negativeInfinity =>
    rw [hstep] at hstart
    cases hstart
  | positiveInfinity =>
    refine ⟨iff_of_true rfl fun ρ hρ ↦ (hpermits ρ hρ).1 ?_, fun hne ↦ absurd rfl hne⟩
    rw [hstep]
    exact finite_le_infinity ρ
  | finite q =>
    rw [hstep, finite_le] at hstart
    have hgreatest (ρ : ℚ) (hρ : 0 ≤ ρ) : t.Permits p s column ρ ↔ ρ ≤ q := by
      rw [← hpermits ρ hρ, hstep, finite_le]
    constructor
    · refine iff_of_false ExtendedRational.noConfusion fun hall ↦ ?_
      have hbeyond := (hgreatest (q + 1) (by linarith)).1 (hall _ (by linarith))
      linarith
    · refine fun _ ↦ ⟨q, rfl, ⟨⟨hstart, (hgreatest q hstart).2 le_rfl⟩, ?_⟩,
        hcandidate.lands h hstep⟩
      exact fun ρ hρ ↦ (hgreatest ρ hρ.1).1 hρ.2

/-- A variable with both bounds, one without any, one with both again and one with a lower bound. -/
def fourBoxes : Program ExtendedRational 4 4 where
  A := Vector.replicate 4 (Vector.replicate 4 0)
  b := Vector.replicate 4 0
  c := Vector.replicate 4 0
  lower := #v[finite 0, negativeInfinity, finite 0, finite 1]
  upper := #v[finite 3, positiveInfinity, finite 4, positiveInfinity]
  integer := Vector.replicate 4 false

/-- The first variable is about to come down from its upper bound. -/
def descending : Tableau ExtendedRational 4 4 where
  value :=
    { structural := #v[finite 3, finite 5, finite 2, finite 1]
      artificial := #v[finite 0, finite 2, finite 0, finite 0] }
  standing :=
    { structural := #v[.atUpper, .basic, .basic, .basic]
      artificial := #v[.atLower, .basic, .atLower, .atLower] }
  basis := #v[.structural 1, .artificial 1, .structural 2, .structural 3]
  inverse := Vector.replicate 4 (Vector.replicate 4 0)
  basicCost := Vector.replicate 4 0

def descendingColumn : Vector ExtendedRational 4 :=
  #v[finite 1, finite (-1), finite 1, finite 0]

theorem descending_poised : descending.Poised fourBoxes 0 descendingColumn where
  column
    | 0 => ⟨1, rfl⟩
    | 1 => ⟨-1, rfl⟩
    | 2 => ⟨1, rfl⟩
    | 3 => ⟨0, rfl⟩
  basic
    | 0 => ⟨5, rfl, rfl, rfl⟩
    | 1 => ⟨2, rfl, by decide, rfl⟩
    | 2 => ⟨2, rfl, by decide, by decide⟩
    | 3 => ⟨1, rfl, by decide, rfl⟩
  stands := .atUpper 3 rfl rfl rfl
  ordered := by decide

/-- An artificial variable that falls and a structural one that rises meet their bounds at the same
time, before the entering variable has crossed its box; the free one rises without a limit, and the
one that is at its lower bound stays there. -/
theorem descending_longest :
    descending.Poised fourBoxes 0 descendingColumn ∧
      (descending.limit fourBoxes (finite 0) 0 descendingColumn).step = finite 2 ∧
      (descending.limit fourBoxes (finite 0) 0 descendingColumn).leaving = some 2 ∧
      IsGreatest {ρ | 0 ≤ ρ ∧ descending.Permits fourBoxes 0 descendingColumn ρ} 2 ∧
      descending.Lands fourBoxes 0 descendingColumn 2 (some 2) := by
  have hfinite : (descending.limit fourBoxes (finite 0) 0 descendingColumn).step = finite 2 := by
    with_unfolding_all decide
  have hleaving : (descending.limit fourBoxes (finite 0) 0 descendingColumn).leaving = some 2 := by
    with_unfolding_all decide
  obtain ⟨ρ, hstep, hgreatest, hlands⟩ :=
    (limit_longest descending_poised).2 (by rw [hfinite]; exact ExtendedRational.noConfusion)
  rw [hleaving] at hlands
  obtain rfl : 2 = ρ := finite.inj (hfinite.symm.trans hstep)
  exact ⟨descending_poised, hfinite, hleaving, hgreatest, hlands⟩

end Simplex

end MixedInteger
