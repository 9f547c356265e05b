import MixedInteger.Proofs.EarliestLeast
import MixedInteger.Proofs.Simplex.Limit

/-!
# What the pivot rules choose

Both rules are scans, and they break ties in opposite ways.  The rule for the entering variable
gives way only to a smaller score, so it takes the first variable of least score, provided that this
score is below the negated tolerance.  The ratio test gives way to a ratio that is as short as the
step so far, which is at first the way of the entering variable to its opposite bound; so it takes
the last row of shortest ratio and prefers any row to a move from bound to bound.

Which tableau it is does not matter: it need not belong to a run, its basic values may lie outside
their bounds, and bounds may be infinite, as long as every ratio is a number or an infinity.
-/

namespace MixedInteger

namespace Simplex

open Arithmetic ExtendedRational Tableau

variable {m n : ℕ}

/-! ## The entering variable -/

section Entering

variable {τ : ℚ} {score : Fin n → ExtendedRational}

/-- What the scan for the entering variable has after `k` scores: the least one below the negated
tolerance, and the first variable that has it. -/
def Leading (rate : Fin n → ℚ) (τ : ℚ) (k : ℕ) (state : ExtendedRational × Option (Fin n)) : Prop :=
  ∃ best, state.1 = finite best ∧ EarliestLeast (fun _ ↦ True) rate (-τ) k best state.2

theorem entering_leading {rate : Fin n → ℚ} (hscore : ∀ j, score j = finite (rate j)) :
    ∃ state, Leading rate τ n state ∧ entering (finite τ) score = state.2 := by
  refine ⟨_, ?_, rfl⟩
  refine foldl_induction (Leading rate τ) ⟨-τ, rfl, .start⟩ ?_
  rintro j ⟨_, index⟩ ⟨best, rfl, hbest⟩
  simp only [hscore, finite_lt]
  split_ifs with hlt
  · exact ⟨_, rfl, hbest.take trivial hlt⟩
  · exact ⟨best, rfl, hbest.pass fun _ ↦ not_lt.1 hlt⟩

theorem entering_eq_none_iff (hscore : ∀ j, ∃ rate, score j = finite rate) :
    entering (finite τ) score = none ↔ ∀ j, -finite τ ≤ score j := by
  choose rate hrate using hscore
  obtain ⟨state, ⟨best, -, hbest⟩, hentering⟩ := entering_leading (τ := τ) hrate
  simp only [hentering, hbest.eq_none_iff, hrate, neg_finite, finite_le, true_imp_iff]

theorem entering_eq_some_iff (hscore : ∀ j, ∃ rate, score j = finite rate) {s : Fin n} :
    entering (finite τ) score = some s ↔
      score s < -finite τ ∧ IsLeast {j | ∀ k, score j ≤ score k} s := by
  choose rate hrate using hscore
  obtain ⟨state, ⟨best, -, hbest⟩, hentering⟩ := entering_leading (τ := τ) hrate
  simp only [hentering, hbest.eq_some_iff, hrate, neg_finite, finite_lt, finite_le, true_imp_iff,
    true_and]

theorem Tableau.score_finite (t : Tableau ExtendedRational m n)
    {reducedCosts : Vector ExtendedRational n}
    (hfinite : ∀ j, ∃ d, reducedCosts.get j = finite d) (j : Fin n) :
    ∃ rate, t.score reducedCosts j = finite rate := by
  obtain ⟨d, hd⟩ := hfinite j
  refine ⟨(t.standing.get (.structural j)).direction * d, ?_⟩
  rw [score, hd, Standing.sign_eq, finite_mul]

end Entering

/-! ## The leaving row -/

section Leaving

/-- The shortest of the ratios of the first `k` rows that are watched, and the last row that has it
unless the way across the box is shorter than all of them. -/
inductive LastShortest (width : ExtendedRational) (watched : Fin m → Prop)
    (ratio : Fin m → ExtendedRational) (k : ℕ) : Limit ExtendedRational m → Prop where
  | crossing (hlonger : ∀ i : Fin m, i.val < k → watched i → width < ratio i) :
      LastShortest width watched ratio k { step := width, leaving := none }
  | row (r : Fin m) (hwatched : watched r) (hwidth : ratio r ≤ width)
      (hleast : ∀ i : Fin m, i.val < k → watched i → ratio r ≤ ratio i)
      (hlast : ∀ i : Fin m, i.val < k → watched i → r < i → ratio r < ratio i) :
      LastShortest width watched ratio k { step := ratio r, leaving := some r }

namespace LastShortest

variable {width : ExtendedRational} {watched : Fin m → Prop} {ratio : Fin m → ExtendedRational}
  {k : ℕ} {limit : Limit ExtendedRational m} {i : Fin m}

theorem step_le_width (hwidth : width ≠ undefined) (h : LastShortest width watched ratio k limit) :
    limit.step ≤ width := by
  cases h with
  | crossing => exact le_refl_of_defined hwidth
  | row r _ hle => exact hle

theorem step_le_ratio (h : LastShortest width watched ratio k limit) (hi : i.val < k)
    (hwatched : watched i) : limit.step ≤ ratio i := by
  cases h with
  | crossing hlonger => exact ExtendedRational.le_of_lt (hlonger i hi hwatched)
  | row r _ _ hleast => exact hleast i hi hwatched

theorem step_eq (h : LastShortest width watched ratio k limit) :
    limit.step = width ∨ ∃ i, watched i ∧ limit.step = ratio i := by
  cases h with
  | crossing => exact .inl rfl
  | row r hwatched => exact .inr ⟨r, hwatched, rfl⟩

theorem step_defined (hwidth : width ≠ undefined) (hratio : ∀ i, watched i → ratio i ≠ undefined)
    (h : LastShortest width watched ratio k limit) : limit.step ≠ undefined := by
  cases h with
  | crossing => exact hwidth
  | row r hwatched => exact hratio r hwatched

/-- A row that is not watched changes nothing. -/
theorem pass (h : LastShortest width watched ratio i.val limit) (hi : ¬ watched i) :
    LastShortest width watched ratio (i.val + 1) limit := by
  cases h with
  | crossing hlonger => exact .crossing (forall_lt_succ.2 ⟨hlonger, fun h ↦ absurd h hi⟩)
  | row r hwatched hwidth hleast hlast =>
    exact .row r hwatched hwidth (forall_lt_succ.2 ⟨hleast, fun h ↦ absurd h hi⟩)
      (forall_lt_succ.2 ⟨hlast, fun h ↦ absurd h hi⟩)

/-- A watched row takes over unless its ratio is longer. -/
theorem shorten (hwidth : width ≠ undefined) (hratio : ∀ i, watched i → ratio i ≠ undefined)
    (h : LastShortest width watched ratio i.val limit) (hi : watched i) :
    LastShortest width watched ratio (i.val + 1) (limit.shorten i (ratio i)) := by
  unfold Limit.shorten
  split_ifs with hle
  · refine .row i hi (ExtendedRational.le_trans hle (h.step_le_width hwidth))
      (forall_lt_succ.2 ⟨fun j hj hwatched ↦ ?_, fun _ ↦ le_refl_of_defined (hratio i hi)⟩) ?_
    · exact ExtendedRational.le_trans hle (h.step_le_ratio hj hwatched)
    · exact fun j hj _ hlt ↦ absurd hlt (Nat.not_lt.2 (Nat.le_of_lt_succ hj))
  · have hlonger : limit.step < ratio i :=
      ExtendedRational.lt_of_not_le (hratio i hi) (h.step_defined hwidth hratio) hle
    cases h with
    | crossing hall => exact .crossing (forall_lt_succ.2 ⟨hall, fun _ ↦ hlonger⟩)
    | row r hwatched hwidth hleast hlast =>
      exact .row r hwatched hwidth
        (forall_lt_succ.2 ⟨hleast, fun _ ↦ ExtendedRational.le_of_lt hlonger⟩)
        (forall_lt_succ.2 ⟨hlast, fun _ _ ↦ hlonger⟩)

theorem leaving_eq_none_iff (h : LastShortest width watched ratio m limit) :
    limit.leaving = none ↔ ∀ i, watched i → width < ratio i := by
  cases h with
  | crossing hlonger => exact iff_of_true rfl fun i ↦ hlonger i i.isLt
  | row r hwatched hwidth =>
    exact iff_of_false nofun fun hall ↦ not_lt_of_le hwidth (hall r hwatched)

theorem leaving_eq_some_iff (hratio : ∀ i, watched i → ratio i ≠ undefined)
    (h : LastShortest width watched ratio m limit) {r : Fin m} :
    limit.leaving = some r ↔ IsGreatest {i | watched i ∧ ratio i = limit.step} r := by
  cases h with
  | crossing hlonger =>
    refine iff_of_false nofun ?_
    rintro ⟨⟨hwatched, hstep⟩, -⟩
    have hlt := hlonger r r.isLt hwatched
    exact not_lt_of_le (le_refl_of_defined (hratio r hwatched)) (hstep ▸ hlt)
  | row l hwatched hwidth hleast hlast =>
    have hl : IsGreatest {i | watched i ∧ ratio i = ratio l} l := by
      refine ⟨⟨hwatched, rfl⟩, fun i hi ↦ not_lt.1 fun hlt ↦ ?_⟩
      have hshorter := hlast i i.isLt hi.1 hlt
      rw [hi.2] at hshorter
      exact not_lt_of_le (le_refl_of_defined (hratio l hwatched)) hshorter
    rw [Option.some.injEq]
    constructor
    · rintro rfl
      exact hl
    · exact fun hr ↦ hl.unique hr

end LastShortest

end Leaving

/-! ## The ratio test -/

section Ratios

variable {t : Tableau ExtendedRational m n} {p : Program ExtendedRational m n} {τ : ℚ}
  {s : Fin n} {column : Vector ExtendedRational m}

/-- The rows that the ratio test looks at. -/
def Watched (τ : ℚ) (column : Vector ExtendedRational m) (i : Fin m) : Prop :=
  finite τ < Arithmetic.magnitude (column.get i)

/-- The ratio of a row: how long its basic variable takes to the bound that it approaches, the lower
one if it falls and the upper one if it rises. -/
def Tableau.ratio (t : Tableau ExtendedRational m n) (p : Program ExtendedRational m n) (s : Fin n)
    (column : Vector ExtendedRational m) (i : Fin m) : ExtendedRational :=
  if 0 < (t.standing.get (.structural s)).sign * column.get i then t.lowerRatio p s column i
  else t.upperRatio p s column i

/-- A tableau whose ratios can be compared: pivot column and basic values are numbers, bounds are
numbers or infinities, and so is the width of the entering variable's box. -/
structure Tableau.Comparable (t : Tableau ExtendedRational m n)
    (p : Program ExtendedRational m n) (s : Fin n) (column : Vector ExtendedRational m) : Prop where
  column : ∀ i, ∃ a, column.get i = finite a
  value : ∀ i, ∃ x, t.value.get (t.basis.get i) = finite x
  lower : ∀ i, lowerBound p (t.basis.get i) ≠ undefined
  upper : ∀ i, upperBound p (t.basis.get i) ≠ undefined
  width : p.upper.get s - p.lower.get s ≠ undefined

theorem finite_sub_ne_undefined (x : ℚ) {a : ExtendedRational} (ha : a ≠ undefined) :
    finite x - a ≠ undefined := by
  cases a with
  | undefined => exact absurd rfl ha
  | finite q => rw [finite_sub]; nofun
  | positiveInfinity => rw [finite_sub_infinity]; nofun
  | negativeInfinity => rw [finite_sub_negativeInfinity]; nofun

/-- How fast the basic variable of a row falls: as fast as the entry of the row says, in one
direction or the other. -/
theorem exists_rate (h : t.Comparable p s column)
    (hs : t.standing.get (.structural s) ≠ .basic) (i : Fin m) :
    ∃ a : ℚ, (t.standing.get (.structural s)).sign * column.get i = finite a ∧
      -(t.standing.get (.structural s)).sign * column.get i = finite (-a) ∧
      Arithmetic.magnitude (column.get i) = finite |a| := by
  obtain ⟨q, hq⟩ := h.column i
  refine ⟨(t.standing.get (.structural s)).direction * q, ?_, ?_, ?_⟩
  · rw [hq, Standing.sign_eq, finite_mul]
  · rw [hq, Standing.sign_eq, neg_finite, finite_mul, neg_mul]
  · rw [hq, magnitude_finite, abs_mul, Standing.abs_direction hs, one_mul]

theorem ratio_defined (hτ : 0 ≤ τ) (h : t.Comparable p s column)
    (hs : t.standing.get (.structural s) ≠ .basic) (i : Fin m) (hi : Watched τ column i) :
    t.ratio p s column i ≠ undefined := by
  obtain ⟨a, ha, -, hmagnitude⟩ := exists_rate h hs i
  obtain ⟨x, hx⟩ := h.value i
  rw [Watched, hmagnitude, finite_lt] at hi
  have hne : a ≠ 0 := abs_pos.1 (hτ.trans_lt hi)
  unfold ratio lowerRatio upperRatio
  rw [ha, hx]
  split_ifs
  · exact div_finite_ne_undefined (finite_sub_ne_undefined x (h.lower i)) hne
  · exact div_finite_ne_undefined (finite_sub_ne_undefined x (h.upper i)) hne

/-- With a tolerance that is not negative, a row takes part with its ratio if it is watched, and not
at all otherwise. -/
theorem meet_eq (hτ : 0 ≤ τ) (h : t.Comparable p s column)
    (hs : t.standing.get (.structural s) ≠ .basic) (limit : Limit ExtendedRational m) (i : Fin m)
    [Decidable (Watched τ column i)] :
    limit.meet (finite τ) i (lowerBound p (t.basis.get i)) (upperBound p (t.basis.get i))
      (t.value.get (t.basis.get i)) ((t.standing.get (.structural s)).sign * column.get i)
      (-(t.standing.get (.structural s)).sign * column.get i) =
        if Watched τ column i then limit.shorten i (t.ratio p s column i) else limit := by
  obtain ⟨a, ha, hopposite, hmagnitude⟩ := exists_rate h hs i
  unfold Limit.meet Watched ratio lowerRatio upperRatio
  simp only [ha, hopposite, hmagnitude, zero_eq_finite, finite_lt]
  rcases lt_or_ge a 0 with hrises | hfalls
  · rw [abs_of_neg hrises, if_neg (hrises.le.trans hτ).not_gt, if_neg hrises.le.not_gt]
  · rw [abs_of_nonneg hfalls, if_neg ((neg_nonpos.2 hfalls).trans hτ).not_gt]
    split_ifs with hwatched hpositive
    · rfl
    · exact absurd (hτ.trans_lt hwatched) hpositive
    · rfl

/-- The ratio test keeps the last of the shortest ratios. -/
theorem limit_lastShortest (hτ : 0 ≤ τ) (h : t.Comparable p s column)
    (hs : t.standing.get (.structural s) ≠ .basic) :
    LastShortest (p.upper.get s - p.lower.get s) (Watched τ column) (t.ratio p s column) m
      (t.limit p (finite τ) s column) := by
  classical
  refine foldl_induction
    (LastShortest (p.upper.get s - p.lower.get s) (Watched τ column) (t.ratio p s column))
    (.crossing fun i hi ↦ absurd hi (Nat.not_lt_zero _)) ?_
  intro i limit hlimit
  dsimp only
  rw [meet_eq hτ h hs]
  split_ifs with hi
  · exact hlimit.shorten h.width (ratio_defined hτ h hs) hi
  · exact hlimit.pass hi

end Ratios

/-! ## Both rules -/

/-- For every tableau and every tolerance that is not negative: no variable enters exactly if no
score lies below the negated tolerance, and otherwise the first variable of least score does.  The
ratio test for a nonbasic variable finds the least of the way across its box and the ratios of the
watched rows; the row that leaves is the last one with this ratio, and none leaves exactly if all
ratios exceed the way across the box. -/
theorem rules_choose (t : Tableau ExtendedRational m n) {τ : ℚ} (hτ : 0 ≤ τ) :
    (∀ reducedCosts : Vector ExtendedRational n, (∀ j, ∃ d, reducedCosts.get j = finite d) →
      (entering (finite τ) (t.score reducedCosts) = none ↔
        ∀ j, -finite τ ≤ t.score reducedCosts j) ∧
      ∀ s, entering (finite τ) (t.score reducedCosts) = some s ↔
        t.score reducedCosts s < -finite τ ∧
          IsLeast {j | ∀ k, t.score reducedCosts j ≤ t.score reducedCosts k} s) ∧
    ∀ (p : Program ExtendedRational m n) (s : Fin n) (column : Vector ExtendedRational m),
      t.standing.get (.structural s) ≠ .basic → t.Comparable p s column →
      let limit := t.limit p (finite τ) s column
      let width := p.upper.get s - p.lower.get s
      (limit.step ≤ width ∧ (∀ i, Watched τ column i → limit.step ≤ t.ratio p s column i) ∧
        (limit.step = width ∨ ∃ i, Watched τ column i ∧ limit.step = t.ratio p s column i)) ∧
      (limit.leaving = none ↔ ∀ i, Watched τ column i → width < t.ratio p s column i) ∧
      ∀ r, limit.leaving = some r ↔
        IsGreatest {i | Watched τ column i ∧ t.ratio p s column i = limit.step} r := by
  constructor
  · intro reducedCosts hfinite
    have hscore := t.score_finite hfinite
    exact ⟨entering_eq_none_iff hscore, fun s ↦ entering_eq_some_iff hscore⟩
  · intro p s column hs h limit width
    have hlimit := limit_lastShortest hτ h hs
    exact ⟨⟨hlimit.step_le_width h.width, fun i ↦ hlimit.step_le_ratio i.isLt, hlimit.step_eq⟩,
      hlimit.leaving_eq_none_iff, fun r ↦ hlimit.leaving_eq_some_iff (ratio_defined hτ h hs)⟩

/-- Three variables, of which the last has no lower bound. -/
def tiedProgram : Program ExtendedRational 4 3 where
  A := Vector.replicate 4 (Vector.replicate 3 0)
  b := Vector.replicate 4 0
  c := Vector.replicate 3 0
  lower := #v[finite 0, finite (-5), negativeInfinity]
  upper := #v[finite 2, finite 0, finite 3]
  integer := Vector.replicate 3 false

/-- The last variable is basic in the last row, the others stand at different bounds. -/
def tied : Tableau ExtendedRational 4 3 where
  value :=
    { structural := #v[finite 0, finite 0, finite 1]
      artificial := #v[finite 4, finite 6, finite 0, finite 0] }
  standing :=
    { structural := #v[.atLower, .atUpper, .basic]
      artificial := #v[.basic, .basic, .basic, .atLower] }
  basis := (Vector.ofFn fun i : Fin 3 ↦ .artificial i.castSucc).push (.structural (Fin.last 2))
  inverse := Vector.replicate 4 (Vector.replicate 4 0)
  basicCost := Vector.replicate 4 0

def tiedCosts : Vector ExtendedRational 3 :=
  #v[finite (-2), finite 2, finite 5]

def tiedColumn : Vector ExtendedRational 4 :=
  #v[finite 2, finite 3, finite (1 / 4), finite (-1)]

theorem tiedCosts_finite : ∀ j, ∃ d, tiedCosts.get j = finite d
  | 0 => ⟨-2, rfl⟩
  | 1 => ⟨2, rfl⟩
  | 2 => ⟨5, rfl⟩

theorem tied_comparable : tied.Comparable tiedProgram 0 tiedColumn where
  column
    | 0 => ⟨2, rfl⟩
    | 1 => ⟨3, rfl⟩
    | 2 => ⟨1 / 4, rfl⟩
    | 3 => ⟨-1, rfl⟩
  value
    | 0 => ⟨4, rfl⟩
    | 1 => ⟨6, rfl⟩
    | 2 => ⟨0, rfl⟩
    | 3 => ⟨1, rfl⟩
  lower := by decide
  upper := by decide
  width := by decide

/-- Two scores are equal, and the first variable enters.  Two variables that fall, one that rises
and the entering variable itself are all stopped after the same time, and the last of the rows
leaves; the third row, which would allow no step at all, is not watched. -/
theorem tied_rules_choose :
    (0 : ℚ) ≤ 1 / 2 ∧ (∀ j, ∃ d, tiedCosts.get j = finite d) ∧
      tied.standing.get (.structural 0) ≠ .basic ∧ tied.Comparable tiedProgram 0 tiedColumn ∧
      IsLeast {j | ∀ k, tied.score tiedCosts j ≤ tied.score tiedCosts k} 0 ∧
      (tied.limit tiedProgram (finite (1 / 2)) 0 tiedColumn).step =
        tiedProgram.upper.get 0 - tiedProgram.lower.get 0 ∧
      IsGreatest {i | Watched (1 / 2) tiedColumn i ∧ tied.ratio tiedProgram 0 tiedColumn i =
        (tied.limit tiedProgram (finite (1 / 2)) 0 tiedColumn).step} 3 := by
  have hτ : (0 : ℚ) ≤ 1 / 2 := by norm_num
  have hstanding : tied.standing.get (.structural 0) ≠ .basic := by decide
  have hentering : entering (finite (1 / 2)) (tied.score tiedCosts) = some 0 := by
    with_unfolding_all decide
  have hleaving : (tied.limit tiedProgram (finite (1 / 2)) 0 tiedColumn).leaving = some 3 := by
    with_unfolding_all decide
  obtain ⟨-, hleast⟩ := (rules_choose tied hτ).1 tiedCosts tiedCosts_finite
  obtain ⟨-, -, hgreatest⟩ :=
    (rules_choose tied hτ).2 tiedProgram 0 tiedColumn hstanding tied_comparable
  exact ⟨hτ, tiedCosts_finite, hstanding, tied_comparable, ((hleast 0).1 hentering).2,
    by with_unfolding_all decide, (hgreatest 3).1 hleaving⟩

end Simplex

end MixedInteger
