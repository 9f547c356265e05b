import Mathlib.Algebra.Order.Field.Basic
import MixedInteger.Proofs.Program.Rational
import MixedInteger.Proofs.Simplex.Bookkeeping

/-!
# The ratio test in exact arithmetic

The entering variable moves at a rate of one in its direction, and the basic variable of a row
falls at the rate that the column gives.  Two facts describe the step the ratio test finds.  It is
attained: at a finite step the leaving variable lands exactly on one of its bounds, and without a
leaving variable the entering one crosses its whole box.  And it is a limit: no step up to it takes
a variable past a bound, as far as the test looks at that variable at all, which is when its rate
exceeds the tolerance.
-/

namespace MixedInteger

namespace Simplex

open Arithmetic ExtendedRational Program Tableau

variable {m n : ℕ}

/-! ## Directions and boxes -/

/-- The direction in which a variable may move, as a rational number. -/
def Standing.direction : Standing → ℚ
  | basic => 0
  | atLower => 1
  | atUpper => -1

theorem Standing.sign_eq (standing : Standing) :
    (standing.sign : ExtendedRational) = finite standing.direction := by
  cases standing <;> rfl

theorem Standing.abs_direction {standing : Standing} (h : standing ≠ .basic) :
    |standing.direction| = 1 := by
  cases standing with
  | basic => exact absurd rfl h
  | atLower => exact abs_one
  | atUpper => exact (abs_neg 1).trans abs_one

/-- Artificial variables have a box as well, bounded below by zero. -/
theorem variable_box {p : Program ExtendedRational m n} (h : p.Admissible) (v : Variable m n) :
    Box (lowerBound p v) (upperBound p v) := by
  cases v with
  | structural j => exact h.box j
  | artificial i => exact .above 0

/-! ## Ratios -/

theorem div_finite_ne_undefined {a : ExtendedRational} (ha : a ≠ undefined) {q : ℚ} (hq : q ≠ 0) :
    a / finite q ≠ undefined := by
  cases a with
  | undefined => exact absurd rfl ha
  | finite p => simp [finite_div p hq]
  | positiveInfinity =>
    change (if q < 0 then negativeInfinity else positiveInfinity) ≠ undefined
    split_ifs <;> simp
  | negativeInfinity =>
    change (if q < 0 then positiveInfinity else negativeInfinity) ≠ undefined
    split_ifs <;> simp

theorem sub_bound_ne_undefined {lower upper : ExtendedRational} (hbox : Box lower upper) (x : ℚ) :
    finite x - upper ≠ undefined ∧ finite x - lower ≠ undefined := by
  cases hbox <;> simp [finite_sub_infinity, finite_sub_negativeInfinity]

theorem width_ne_undefined {lower upper : ExtendedRational} (hbox : Box lower upper) :
    upper - lower ≠ undefined := by
  cases hbox <;> simp [infinity_sub_finite, finite_sub_negativeInfinity]

/-- A variable that rises has all the time in the world before it meets an absent upper bound. -/
theorem upperRatio_cases {lower upper : ExtendedRational} (hbox : Box lower upper) (x : ℚ) {a : ℚ}
    (ha : a < 0) :
    (finite x - upper) / finite a = positiveInfinity ∨
      ∃ u, upper = finite u ∧ (finite x - upper) / finite a = finite ((x - u) / a) := by
  cases hbox with
  | between l u => exact .inr ⟨u, rfl, by rw [finite_sub, finite_div _ ha.ne]⟩
  | above l => exact .inl (by rw [finite_sub_infinity, negativeInfinity_div_neg ha])
  | below u => exact .inr ⟨u, rfl, by rw [finite_sub, finite_div _ ha.ne]⟩

/-- A variable that falls never meets an absent lower bound. -/
theorem lowerRatio_cases {lower upper : ExtendedRational} (hbox : Box lower upper) (x : ℚ) {a : ℚ}
    (ha : 0 < a) :
    (finite x - lower) / finite a = positiveInfinity ∨
      ∃ l, lower = finite l ∧ (finite x - lower) / finite a = finite ((x - l) / a) := by
  cases hbox with
  | between l u => exact .inr ⟨l, rfl, by rw [finite_sub, finite_div _ ha.ne']⟩
  | above l => exact .inr ⟨l, rfl, by rw [finite_sub, finite_div _ ha.ne']⟩
  | below u => exact .inl (by rw [finite_sub_negativeInfinity, infinity_div_pos ha])

/-- The distance between two bounds is finite only if both are. -/
theorem width_cases {lower upper : ExtendedRational} (hbox : Box lower upper) :
    upper - lower = positiveInfinity ∨
      ∃ l u, lower = finite l ∧ upper = finite u ∧ upper - lower = finite (u - l) := by
  cases hbox with
  | between l u => exact .inr ⟨l, u, rfl, rfl, finite_sub u l⟩
  | above l => exact .inl (infinity_sub_finite l)
  | below u => exact .inl (finite_sub_negativeInfinity u)

/-! ## One row -/

namespace Limit

/-- A row leaves the limit alone, or it becomes the limit with one of its two ratios. -/
theorem meet_cases {α : Type} [Arithmetic α] (tolerance : α) (limit : Limit α m) (i : Fin m)
    (lower upper value rate opposite : α) :
    limit.meet tolerance i lower upper value rate opposite = limit ∨
      (tolerance < opposite ∧ limit.meet tolerance i lower upper value rate opposite =
        { step := (value - upper) / rate, leaving := some i }) ∨
      (tolerance < rate ∧ limit.meet tolerance i lower upper value rate opposite =
        { step := (value - lower) / rate, leaving := some i }) := by
  unfold meet shorten
  dsimp only
  split_ifs with hopposite <;> simp_all

variable {limit : Limit ExtendedRational m} {ratio : ExtendedRational}

theorem shorten_step_ne_undefined (hlimit : limit.step ≠ undefined) (hratio : ratio ≠ undefined)
    (i : Fin m) : (limit.shorten i ratio).step ≠ undefined := by
  unfold shorten
  split_ifs
  · exact hratio
  · exact hlimit

theorem shorten_step_le (hlimit : limit.step ≠ undefined) (i : Fin m) :
    (limit.shorten i ratio).step ≤ limit.step := by
  unfold shorten
  split_ifs with h
  · exact h
  · exact le_refl_of_defined hlimit

theorem shorten_step_le_ratio (hlimit : limit.step ≠ undefined) (hratio : ratio ≠ undefined)
    (i : Fin m) : (limit.shorten i ratio).step ≤ ratio := by
  unfold shorten
  split_ifs with h
  · exact le_refl_of_defined hratio
  · exact le_of_not_le hratio hlimit h

/-- A row shortens the step to at most those ratios that the tolerance admits. -/
theorem meet_step {τ : ℚ} (hτ : 0 ≤ τ) (hlimit : limit.step ≠ undefined) {i : Fin m}
    {lower upper : ExtendedRational} (hbox : Box lower upper) {x a : ℚ}
    {next : Limit ExtendedRational m}
    (hnext : limit.meet (finite τ) i lower upper (finite x) (finite a) (finite (-a)) = next) :
    next.step ≠ undefined ∧ next.step ≤ limit.step ∧
      (τ < -a → next.step ≤ (finite x - upper) / finite a) ∧
      (τ < a → next.step ≤ (finite x - lower) / finite a) := by
  obtain ⟨hupper, hlower⟩ := sub_bound_ne_undefined hbox x
  subst hnext
  unfold meet
  simp only [finite_lt]
  by_cases hrising : τ < -a
  · -- a variable that rises does not fall, so the second test fails
    have ha : a < 0 := by linarith
    have hratio := div_finite_ne_undefined hupper ha.ne
    rw [if_pos hrising, if_neg (by linarith)]
    exact ⟨shorten_step_ne_undefined hlimit hratio i, shorten_step_le hlimit i,
      fun _ ↦ shorten_step_le_ratio hlimit hratio i, fun hfalling ↦ by linarith⟩
  rw [if_neg hrising]
  by_cases hfalling : τ < a
  · have ha : 0 < a := hτ.trans_lt hfalling
    have hratio := div_finite_ne_undefined hlower ha.ne'
    rw [if_pos hfalling]
    exact ⟨shorten_step_ne_undefined hlimit hratio i, shorten_step_le hlimit i,
      fun h ↦ absurd h hrising, fun _ ↦ shorten_step_le_ratio hlimit hratio i⟩
  · rw [if_neg hfalling]
    exact ⟨hlimit, le_refl_of_defined hlimit, fun h ↦ absurd h hrising,
      fun h ↦ absurd h hfalling⟩

end Limit

/-! ## All rows -/

/-- The ratios of the two bounds of the variable that is basic in row `i`. -/
def Tableau.upperRatio {α : Type} [Arithmetic α] (t : Tableau α m n) (p : Program α m n)
    (s : Fin n) (column : Vector α m) (i : Fin m) : α :=
  (t.value.get (t.basis.get i) - upperBound p (t.basis.get i)) /
    ((t.standing.get (.structural s)).sign * column.get i)

@[inherit_doc upperRatio]
def Tableau.lowerRatio {α : Type} [Arithmetic α] (t : Tableau α m n) (p : Program α m n)
    (s : Fin n) (column : Vector α m) (i : Fin m) : α :=
  (t.value.get (t.basis.get i) - lowerBound p (t.basis.get i)) /
    ((t.standing.get (.structural s)).sign * column.get i)

/-- What the ratio test chooses from: the way of the entering variable to its opposite bound, and
the way of each basic variable to a bound, if its rate exceeds the tolerance. -/
inductive Tableau.Candidate {α : Type} [Arithmetic α] (t : Tableau α m n) (p : Program α m n)
    (tolerance : α) (s : Fin n) (column : Vector α m) : Limit α m → Prop where
  | crossing : Candidate t p tolerance s column
      { step := p.upper.get s - p.lower.get s, leaving := none }
  | rising (r : Fin m)
      (hrate : tolerance < -(t.standing.get (.structural s)).sign * column.get r) :
      Candidate t p tolerance s column { step := t.upperRatio p s column r, leaving := some r }
  | falling (r : Fin m)
      (hrate : tolerance < (t.standing.get (.structural s)).sign * column.get r) :
      Candidate t p tolerance s column { step := t.lowerRatio p s column r, leaving := some r }

theorem limit_candidate {α : Type} [Arithmetic α] (t : Tableau α m n) (p : Program α m n)
    (tolerance : α) (s : Fin n) (column : Vector α m) :
    t.Candidate p tolerance s column (t.limit p tolerance s column) := by
  refine foldl_induction (fun _ ↦ t.Candidate p tolerance s column) .crossing ?_
  intro i limit hlimit
  obtain h | ⟨hrate, h⟩ | ⟨hrate, h⟩ := limit.meet_cases tolerance i
    (lowerBound p (t.basis.get i)) (upperBound p (t.basis.get i)) (t.value.get (t.basis.get i))
    ((t.standing.get (.structural s)).sign * column.get i)
    (-(t.standing.get (.structural s)).sign * column.get i)
  · rw [h]
    exact hlimit
  · rw [h]
    exact .rising i hrate
  · rw [h]
    exact .falling i hrate

/-! ## Rational steps -/

/-- The current point of a tableau. -/
def Tableau.point (t : Tableau ExtendedRational m n) (v : Variable m n) : ℚ :=
  (t.value.get v).rational

/-- How fast the basic variable of row `i` falls while variable `s` enters along a column. -/
def Tableau.rate (t : Tableau ExtendedRational m n) (s : Fin n) (column : Fin m → ℚ)
    (i : Fin m) : ℚ :=
  (t.standing.get (.structural s)).direction * column i

/-- A step that takes no variable past a bound, as far as rates above the tolerance go. -/
structure Tableau.Respects (t : Tableau ExtendedRational m n) (p : Program ExtendedRational m n)
    (τ : ℚ) (s : Fin n) (column : Fin m → ℚ) (ρ : ℚ) : Prop where
  crossing : ∀ l u, p.lower.get s = finite l → p.upper.get s = finite u → ρ ≤ u - l
  rising : ∀ i u, τ < -t.rate s column i → upperBound p (t.basis.get i) = finite u →
    t.point (t.basis.get i) - ρ * t.rate s column i ≤ u
  falling : ∀ i l, τ < t.rate s column i → lowerBound p (t.basis.get i) = finite l →
    l ≤ t.point (t.basis.get i) - ρ * t.rate s column i

/-- A step at which a variable lands on a bound: the entering one without a leaving one. -/
inductive Tableau.Attains (t : Tableau ExtendedRational m n) (p : Program ExtendedRational m n)
    (τ : ℚ) (s : Fin n) (column : Fin m → ℚ) (ρ : ℚ) : Option (Fin m) → Prop where
  | crossing (l u : ℚ) (hlower : p.lower.get s = finite l) (hupper : p.upper.get s = finite u)
      (hstep : ρ = u - l) : Attains t p τ s column ρ none
  | rising (r : Fin m) (u : ℚ) (hrate : τ < -t.rate s column r)
      (hupper : upperBound p (t.basis.get r) = finite u)
      (hlands : t.point (t.basis.get r) - ρ * t.rate s column r = u) :
      Attains t p τ s column ρ (some r)
  | falling (r : Fin m) (l : ℚ) (hrate : τ < t.rate s column r)
      (hlower : lowerBound p (t.basis.get r) = finite l)
      (hlands : t.point (t.basis.get r) - ρ * t.rate s column r = l) :
      Attains t p τ s column ρ (some r)

section Exact

variable {t : Tableau ExtendedRational m n} {p : Program ExtendedRational m n} {τ : ℚ}
  {s : Fin n} {column : Vector ExtendedRational m} {rational : Fin m → ℚ}

theorem rate_eq (hcolumn : ∀ i, column.get i = finite (rational i)) (i : Fin m) :
    (t.standing.get (.structural s)).sign * column.get i = finite (t.rate s rational i) := by
  rw [Standing.sign_eq, hcolumn, finite_mul, rate]

theorem opposite_eq (hcolumn : ∀ i, column.get i = finite (rational i)) (i : Fin m) :
    -(t.standing.get (.structural s)).sign * column.get i = finite (-t.rate s rational i) := by
  rw [Standing.sign_eq, hcolumn, neg_finite, finite_mul, rate, neg_mul]

/-- The step of the ratio test is attained unless it is infinite. -/
theorem Tableau.Candidate.attains {limit : Limit ExtendedRational m} (hp : p.Admissible)
    (hτ : 0 ≤ τ) (hvalue : ∀ v, t.value.get v = finite (t.point v))
    (hcolumn : ∀ i, column.get i = finite (rational i))
    (h : t.Candidate p (finite τ) s column limit) (hstep : ¬ infinity ≤ limit.step) :
    ∃ ρ, limit.step = finite ρ ∧ t.Attains p τ s rational ρ limit.leaving := by
  rw [infinity_le_iff] at hstep
  cases h with
  | crossing =>
    obtain h | ⟨l, u, hlower, hupper, h⟩ := width_cases (hp.box s)
    · exact absurd h hstep
    · exact ⟨u - l, h, .crossing l u hlower hupper rfl⟩
  | rising r hrate =>
    rw [opposite_eq hcolumn, finite_lt] at hrate
    have hrising : t.rate s rational r < 0 := by linarith
    dsimp only [upperRatio] at hstep ⊢
    rw [hvalue, rate_eq hcolumn] at hstep ⊢
    obtain h | ⟨u, hupper, h⟩ :=
      upperRatio_cases (variable_box hp (t.basis.get r)) (t.point (t.basis.get r)) hrising
    · exact absurd h hstep
    · refine ⟨_, h, .rising r u hrate hupper ?_⟩
      rw [div_mul_cancel₀ _ hrising.ne]
      ring
  | falling r hrate =>
    rw [rate_eq hcolumn, finite_lt] at hrate
    have hfalling : 0 < t.rate s rational r := hτ.trans_lt hrate
    dsimp only [lowerRatio] at hstep ⊢
    rw [hvalue, rate_eq hcolumn] at hstep ⊢
    obtain h | ⟨l, hlower, h⟩ :=
      lowerRatio_cases (variable_box hp (t.basis.get r)) (t.point (t.basis.get r)) hfalling
    · exact absurd h hstep
    · refine ⟨_, h, .falling r l hrate hlower ?_⟩
      rw [div_mul_cancel₀ _ hfalling.ne']
      ring

/-- A step that is no longer than the way of the entering variable to its opposite bound, nor than
that of a basic variable of the first `k` rows whose rate exceeds the tolerance. -/
structure Tableau.NoLonger (t : Tableau ExtendedRational m n) (p : Program ExtendedRational m n)
    (τ : ℚ) (s : Fin n) (column : Vector ExtendedRational m) (rational : Fin m → ℚ) (k : ℕ)
    (limit : Limit ExtendedRational m) : Prop where
  defined : limit.step ≠ undefined
  crossing : limit.step ≤ p.upper.get s - p.lower.get s
  rising : ∀ i : Fin m, i.val < k → τ < -t.rate s rational i →
    limit.step ≤ t.upperRatio p s column i
  falling : ∀ i : Fin m, i.val < k → τ < t.rate s rational i →
    limit.step ≤ t.lowerRatio p s column i

theorem limit_noLonger (hp : p.Admissible) (hτ : 0 ≤ τ)
    (hvalue : ∀ v, t.value.get v = finite (t.point v))
    (hcolumn : ∀ i, column.get i = finite (rational i)) :
    t.NoLonger p τ s column rational m (t.limit p (finite τ) s column) := by
  have hwidth := width_ne_undefined (hp.box s)
  refine foldl_induction (t.NoLonger p τ s column rational)
    ⟨hwidth, le_refl_of_defined hwidth, by simp, by simp⟩ ?_
  intro i limit hlimit
  obtain ⟨hnext, hle, hupper, hlower⟩ := Limit.meet_step (i := i) hτ hlimit.defined
    (variable_box hp (t.basis.get i)) (x := t.point (t.basis.get i)) (a := t.rate s rational i) rfl
  simp only [hvalue, rate_eq hcolumn, opposite_eq hcolumn]
  -- rows met before keep their ratios above the shorter step
  refine ⟨hnext, ExtendedRational.le_trans hle hlimit.crossing, fun k hk hrate ↦ ?_,
    fun k hk hrate ↦ ?_⟩
  · rcases Nat.lt_succ_iff_lt_or_eq.1 hk with hlt | heq
    · exact ExtendedRational.le_trans hle (hlimit.rising k hlt hrate)
    · obtain rfl : k = i := Fin.ext heq
      rw [upperRatio, hvalue, rate_eq hcolumn]
      exact hupper hrate
  · rcases Nat.lt_succ_iff_lt_or_eq.1 hk with hlt | heq
    · exact ExtendedRational.le_trans hle (hlimit.falling k hlt hrate)
    · obtain rfl : k = i := Fin.ext heq
      rw [lowerRatio, hvalue, rate_eq hcolumn]
      exact hlower hrate

/-- No step up to that of the ratio test takes a variable past a bound. -/
theorem limit_respects (hp : p.Admissible) (hτ : 0 ≤ τ)
    (hvalue : ∀ v, t.value.get v = finite (t.point v))
    (hcolumn : ∀ i, column.get i = finite (rational i)) {ρ : ℚ}
    (hstep : finite ρ ≤ (t.limit p (finite τ) s column).step) :
    t.Respects p τ s rational ρ := by
  have hlimit := limit_noLonger (s := s) hp hτ hvalue hcolumn
  constructor
  · intro l u hlower hupper
    have h := ExtendedRational.le_trans hstep hlimit.crossing
    rwa [hlower, hupper, finite_sub, finite_le] at h
  · intro i u hrate hupper
    have h := ExtendedRational.le_trans hstep (hlimit.rising i i.isLt hrate)
    have hrising : t.rate s rational i < 0 := by linarith
    rw [upperRatio, hvalue, rate_eq hcolumn, hupper, finite_sub, finite_div _ hrising.ne,
      finite_le, le_div_iff_of_neg hrising] at h
    linarith
  · intro i l hrate hlower
    have h := ExtendedRational.le_trans hstep (hlimit.falling i i.isLt hrate)
    have hfalling : 0 < t.rate s rational i := hτ.trans_lt hrate
    rw [lowerRatio, hvalue, rate_eq hcolumn, hlower, finite_sub, finite_div _ hfalling.ne',
      finite_le, le_div_iff₀ hfalling] at h
    linarith

end Exact

end Simplex

end MixedInteger
