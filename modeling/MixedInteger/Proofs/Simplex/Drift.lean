import Mathlib.Tactic.NormNum
import MixedInteger.Proofs.Simplex.Bounds

/-!
# Drift out of the bounds

With a positive tolerance a run can leave the bounds.  The ratio test does not look at a row whose
pivot entry is within the tolerance, however long the step is; and a step may be negative, since a
variable that leaves the basis at the lower bound of a narrow box is recorded at the upper one.
The drift of a variable is the total distance that it covers in moves of these two kinds.  At every
head of a run a variable is at most by its drift above its upper bound, and at most by its drift and
the tolerance below its lower one.
-/

namespace MixedInteger

open Arithmetic ExtendedRational

namespace Simplex

variable {m n : ℕ} {p : Program ExtendedRational m n} {τ : ℚ}

/-! ## The drift -/

namespace State

/-- The ratio test watches over a variable when `s` enters: the step is not negative, and in the
row in which the variable is basic, if there is one, the pivot entry exceeds the tolerance. -/
def Watches (p : Program ExtendedRational m n) (τ : ℚ) (state : State ExtendedRational m n)
    (s : Fin n) (v : Variable m n) : Prop :=
  0 ≤ (state.limit p (finite τ) s).step ∧
    ∀ i, state.tableau.basis.get i = v → finite τ < Arithmetic.magnitude ((state.column p s).get i)

instance (p : Program ExtendedRational m n) (τ : ℚ) (state : State ExtendedRational m n)
    (s : Fin n) (v : Variable m n) : Decidable (state.Watches p τ s v) :=
  inferInstanceAs (Decidable (_ ∧ _))

/-- How far a variable moves in one iteration without being watched over. -/
def unwatched (p : Program ExtendedRational m n) (τ : ℚ) (state : State ExtendedRational m n)
    (v : Variable m n) : ℚ :=
  match state.entering? p (finite τ) with
  | none => 0
  | some s =>
    if state.Watches p τ s v then 0
    else |(state.moved p (finite τ) s).point v - state.tableau.point v|

theorem unwatched_nonneg (state : State ExtendedRational m n) (v : Variable m n) :
    0 ≤ state.unwatched p τ v := by
  unfold unwatched
  split
  · exact le_rfl
  · split_ifs
    · exact le_rfl
    · exact abs_nonneg _

theorem unwatched_cases {state : State ExtendedRational m n} {s : Fin n}
    (hentering : state.entering? p (finite τ) = some s) (v : Variable m n) :
    (state.Watches p τ s v ∧ state.unwatched p τ v = 0) ∨
      state.unwatched p τ v =
        |(state.moved p (finite τ) s).point v - state.tableau.point v| := by
  unfold unwatched
  rw [hentering]
  by_cases hwatches : state.Watches p τ s v
  · exact .inl ⟨hwatches, if_pos hwatches⟩
  · exact .inr (if_neg hwatches)

/-- The drift of a variable in the run from a state. -/
def drift (p : Program ExtendedRational m n) (τ : ℚ) (allowance : ℕ)
    (state : State ExtendedRational m n) (v : Variable m n) : ℚ :=
  ((state.heads p (finite τ) allowance).map fun head ↦ head.unwatched p τ v).sum

theorem drift_nonneg (allowance : ℕ) (state : State ExtendedRational m n) (v : Variable m n) :
    0 ≤ state.drift p τ allowance v := by
  apply List.sum_nonneg
  intro distance hdistance
  obtain ⟨head, -, rfl⟩ := List.mem_map.1 hdistance
  exact head.unwatched_nonneg v

end State

/-- The drift of a variable in the run on a program. -/
def drift (p : Program ExtendedRational m n) (τ : ℚ) (allowance : ℕ) : Variable m n → ℚ :=
  (State.start p).drift p τ allowance

/-! ## Labels that are wrong by a narrow box -/

/-- A variable is at the bound that its standing names, or by the width of its box below it, if the
box is narrower than the tolerance. -/
inductive Near (lower upper : ExtendedRational) (τ : ℚ) (bound : ExtendedRational) (x : ℚ) :
    Prop where
  | reached (h : finite x = bound)
  | short (l u : ℚ) (hlower : lower = finite l) (hupper : upper = finite u) (hnarrow : u - l < τ)
      (h : finite (x + (u - l)) = bound)

section Labels

variable {lower upper : ExtendedRational} {x ρ : ℚ}

/-- A variable that lands on one of its bounds is recorded at it or at the upper end of its narrow
box. -/
theorem leavingStanding_near (hbox : Program.Box lower upper) (hordered : lower ≤ upper)
    (hx : finite x = lower ∨ finite x = upper) :
    (Tableau.leavingStanding (finite τ) lower upper (finite x) = .atLower →
      Near lower upper τ lower x) ∧
    (Tableau.leavingStanding (finite τ) lower upper (finite x) = .atUpper →
      Near lower upper τ upper x) := by
  by_cases hseparated : ∀ l u, lower = finite l → upper = finite u → u = l ∨ τ ≤ |u - l|
  · have hplaced := Tableau.leavingStanding_placed hbox hseparated hx
    exact ⟨fun h ↦ .reached (hplaced.1 h), fun h ↦ .reached (hplaced.2 h)⟩
  · push Not at hseparated
    obtain ⟨l, u, rfl, rfl, hne, hnarrow⟩ := hseparated
    rw [finite_le] at hordered
    have hupper : Tableau.leavingStanding (finite τ) (finite l) (finite u) (finite x) =
        .atUpper := by
      have hclose : |x - u| < τ := by
        rcases hx with hx | hx
        · rwa [finite.inj hx, abs_sub_comm]
        · rw [finite.inj hx, sub_self, abs_zero]
          exact (abs_nonneg _).trans_lt hnarrow
      rw [Tableau.leavingStanding, finite_sub, magnitude_finite, if_pos (finite_lt.2 hclose)]
    refine ⟨fun h ↦ (Standing.noConfusion (hupper.symm.trans h)), fun _ ↦ ?_⟩
    rcases hx with hx | hx
    · refine .short l u rfl rfl ((le_abs_self _).trans_lt hnarrow) ?_
      rw [finite.inj hx, add_sub_cancel]
    · exact .reached hx

/-- A variable that rises from near its lower bound, by no more than its width, stays close to its
box. -/
theorem Near.rises (hτ : 0 ≤ τ) (hordered : lower ≤ upper) (h : Near lower upper τ lower x)
    (hρ : 0 ≤ ρ) (hwidth : ∀ l u, lower = finite l → upper = finite u → ρ ≤ u - l) :
    (∀ l, lower = finite l → l - τ ≤ x + ρ) ∧ ∀ u, upper = finite u → x + ρ ≤ u := by
  cases h with
  | reached h =>
    subst h
    refine ⟨fun l hl ↦ ?_, fun u hu ↦ ?_⟩
    · rw [← finite.inj hl]
      linarith
    · have hle := hwidth x u rfl hu
      linarith
  | short l u hlower hupper hnarrow h =>
    subst hlower hupper
    rw [finite_le] at hordered
    have hx : x + (u - l) = l := finite.inj h
    have hle := hwidth l u rfl rfl
    refine ⟨fun l' hl ↦ ?_, fun u' hu ↦ ?_⟩
    · rw [← finite.inj hl]
      linarith
    · rw [← finite.inj hu]
      linarith

theorem Near.falls (hτ : 0 ≤ τ) (hordered : lower ≤ upper) (h : Near lower upper τ upper x)
    (hρ : 0 ≤ ρ) (hwidth : ∀ l u, lower = finite l → upper = finite u → ρ ≤ u - l) :
    (∀ l, lower = finite l → l - τ ≤ x - ρ) ∧ ∀ u, upper = finite u → x - ρ ≤ u := by
  cases h with
  | reached h =>
    subst h
    refine ⟨fun l hl ↦ ?_, fun u hu ↦ ?_⟩
    · have hle := hwidth l x hl rfl
      linarith
    · rw [← finite.inj hu]
      linarith
  | short l u hlower hupper hnarrow h =>
    subst hlower hupper
    rw [finite_le] at hordered
    have hx : x + (u - l) = u := finite.inj h
    have hle := hwidth l u rfl rfl
    refine ⟨fun l' hl ↦ ?_, fun u' hu ↦ ?_⟩
    · rw [← finite.inj hl]
      linarith
    · rw [← finite.inj hu]
      linarith

/-- After the width of its box a variable is near its other bound. -/
theorem Near.crosses {l u : ℚ} (hlower : lower = finite l) (hupper : upper = finite u) :
    (Near lower upper τ lower x → Near lower upper τ upper (x + (u - l))) ∧
      (Near lower upper τ upper x → Near lower upper τ lower (x - (u - l))) := by
  subst hlower hupper
  constructor
  · intro h
    cases h with
    | reached h =>
      refine .reached ?_
      rw [finite.inj h, add_sub_cancel]
    | short l' u' hl hu hnarrow h =>
      rw [← finite.inj hl, ← finite.inj hu] at hnarrow h
      refine .short l u rfl rfl hnarrow ?_
      rw [finite.inj h, add_sub_cancel]
  · intro h
    cases h with
    | reached h =>
      refine .reached ?_
      rw [finite.inj h, sub_sub_cancel]
    | short l' u' hl hu hnarrow h =>
      rw [← finite.inj hl, ← finite.inj hu] at hnarrow h
      refine .short l u rfl rfl hnarrow ?_
      rw [sub_add_cancel, eq_sub_of_add_eq (finite.inj h), sub_sub_cancel]

end Labels

/-! ## Points that stray -/

theorem variable_ordered (hp : p.Valid) (v : Variable m n) :
    Tableau.lowerBound p v ≤ Tableau.upperBound p v := by
  cases v with
  | structural j => exact hp.ordered j
  | artificial i => exact finite_le_infinity 0

/-- A nonbasic variable is near the bound that its standing names. -/
structure Tableau.Labelled (t : Tableau ExtendedRational m n) (p : Program ExtendedRational m n)
    (τ : ℚ) (v : Variable m n) : Prop where
  atLower : t.standing.get v = .atLower →
    Near (lowerBound p v) (upperBound p v) τ (lowerBound p v) (t.point v)
  atUpper : t.standing.get v = .atUpper →
    Near (lowerBound p v) (upperBound p v) τ (upperBound p v) (t.point v)

/-- Variables stray from their bounds by at most the given distances, and by the tolerance below the
lower ones. -/
structure Tableau.Strays (t : Tableau ExtendedRational m n) (p : Program ExtendedRational m n)
    (τ : ℚ) (distance : Variable m n → ℚ) : Prop where
  nonneg : ∀ v, 0 ≤ distance v
  lower : ∀ v l, lowerBound p v = finite l → l - τ - distance v ≤ t.point v
  upper : ∀ v u, upperBound p v = finite u → t.point v ≤ u + distance v
  labelled : ∀ v, t.Labelled p τ v

namespace Tableau

variable {t : Tableau ExtendedRational m n} {distance more : Variable m n → ℚ}

theorem Strays.mono (h : t.Strays p τ distance) (hmore : ∀ v, distance v ≤ more v) :
    t.Strays p τ more where
  nonneg v := (h.nonneg v).trans (hmore v)
  lower v l hl := by
    have hlower := h.lower v l hl
    have hle := hmore v
    linarith
  upper v u hu := by
    have hupper := h.upper v u hu
    have hle := hmore v
    linarith
  labelled := h.labelled

theorem start_strays (hp : p.Valid) (hτ : 0 ≤ τ) : (start p).Strays p τ fun _ ↦ 0 where
  nonneg _ := le_rfl
  lower v l hl := by
    have hlower := (start_bounded hp).lower v
    rw [(start_exact hp.toAdmissible).value, hl, finite_le] at hlower
    linarith
  upper v u hu := by
    have hupper := (start_bounded hp).upper v
    rw [(start_exact hp.toAdmissible).value, hu, finite_le] at hupper
    linarith
  labelled v := by
    have hplaced := start_placed hp.toAdmissible
    have hvalue := (start_exact hp.toAdmissible).value v
    exact ⟨fun hv ↦ .reached (hvalue.symm.trans (hplaced.atLower v hv)),
      fun hv ↦ .reached (hvalue.symm.trans (hplaced.atUpper v hv))⟩

/-! ## One move -/

variable {phase : Phase} {s : Fin n} {ρ : ℚ}

theorem point_of_value {t : Tableau ExtendedRational m n} {v : Variable m n} {q : ℚ}
    (h : t.value.get v = finite q) : t.point v = q := by
  rw [point, h, rational_finite]

theorem direction_cases (hs : t.standing.get (.structural s) ≠ .basic) :
    (t.standing.get (.structural s) = .atLower ∧
        (t.standing.get (.structural s)).direction = 1) ∨
      (t.standing.get (.structural s) = .atUpper ∧
        (t.standing.get (.structural s)).direction = -1) := by
  cases hstanding : t.standing.get (.structural s) with
  | basic => exact absurd hstanding hs
  | atLower => exact .inl ⟨rfl, rfl⟩
  | atUpper => exact .inr ⟨rfl, rfl⟩

theorem abs_rate (hs : t.standing.get (.structural s) ≠ .basic) (column : Fin m → ℚ) (i : Fin m) :
    |t.rate s column i| = |column i| := by
  rw [rate, abs_mul, Standing.abs_direction hs, one_mul]

/-- A forward step takes the entering variable no farther out of its box than the tolerance. -/
theorem Strays.entering (hp : p.Valid) (hτ : 0 ≤ τ) (h : t.Strays p τ distance)
    (hs : t.standing.get (.structural s) ≠ .basic) (hρ : 0 ≤ ρ) {column : Fin m → ℚ}
    (hrespects : t.Respects p τ s column ρ) :
    (∀ l, p.lower.get s = finite l → l - τ ≤
        t.point (.structural s) + (t.standing.get (.structural s)).direction * ρ) ∧
      ∀ u, p.upper.get s = finite u →
        t.point (.structural s) + (t.standing.get (.structural s)).direction * ρ ≤ u := by
  obtain ⟨hstanding, hdirection⟩ | ⟨hstanding, hdirection⟩ := direction_cases hs
  · rw [hdirection, one_mul]
    exact ((h.labelled _).atLower hstanding).rises hτ (hp.ordered s) hρ hrespects.crossing
  · rw [hdirection, neg_one_mul, ← sub_eq_add_neg]
    exact ((h.labelled _).atUpper hstanding).falls hτ (hp.ordered s) hρ hrespects.crossing

/-- A forward step takes a basic variable that is watched over no farther out of its bounds. -/
theorem Strays.basic (hτ : 0 ≤ τ) (h : t.Strays p τ distance) {column : Fin m → ℚ} (hρ : 0 ≤ ρ)
    (hrespects : t.Respects p τ s column ρ) {r : Fin m} (hrate : τ < |t.rate s column r|) :
    (∀ l, lowerBound p (t.basis.get r) = finite l → l - τ - distance (t.basis.get r) ≤
        t.point (t.basis.get r) - ρ * t.rate s column r) ∧
      ∀ u, upperBound p (t.basis.get r) = finite u →
        t.point (t.basis.get r) - ρ * t.rate s column r ≤ u + distance (t.basis.get r) := by
  have hdistance := h.nonneg (t.basis.get r)
  rcases lt_abs.1 hrate with hfalls | hrises
  · have hmove : 0 ≤ ρ * t.rate s column r := mul_nonneg hρ (hτ.trans hfalls.le)
    refine ⟨fun l hl ↦ ?_, fun u hu ↦ ?_⟩
    · have hlower := hrespects.falling r l hfalls hl
      linarith
    · have hupper := h.upper _ u hu
      linarith
  · have hmove : 0 ≤ ρ * -t.rate s column r := mul_nonneg hρ (hτ.trans hrises.le)
    refine ⟨fun l hl ↦ ?_, fun u hu ↦ ?_⟩
    · have hlower := h.lower _ l hl
      linarith
    · have hupper := hrespects.rising r u hrises hu
      linarith

/-! ## New labels -/

/-- A label stays right where neither the standing nor a nonbasic value changes. -/
theorem Labelled.of_same {other : Tableau ExtendedRational m n} {v : Variable m n}
    (h : t.Labelled p τ v) (hstanding : other.standing.get v = t.standing.get v)
    (hpoint : t.standing.get v ≠ .basic → other.point v = t.point v) : other.Labelled p τ v where
  atLower hv := by
    rw [hstanding] at hv
    rw [hpoint (by rw [hv]; exact Standing.noConfusion)]
    exact h.atLower hv
  atUpper hv := by
    rw [hstanding] at hv
    rw [hpoint (by rw [hv]; exact Standing.noConfusion)]
    exact h.atUpper hv

theorem Labelled.of_basic {v : Variable m n} (h : t.standing.get v = .basic) :
    t.Labelled p τ v where
  atLower hv := Standing.noConfusion (h.symm.trans hv)
  atUpper hv := Standing.noConfusion (h.symm.trans hv)

section Moved

variable (hp : p.Valid) (ht : t.Rational) (hconsistent : t.Consistent p phase)
  (hs : t.standing.get (.structural s) ≠ .basic)

include hp ht hconsistent

/-- A nonbasic variable that does not enter keeps its place. -/
theorem point_move (ρ : ℚ) {v : Variable m n} (hv : t.standing.get v ≠ .basic)
    (hvs : v ≠ .structural s) :
    (t.move s (finite ρ) (t.column p s)).point v = t.point v :=
  point_of_value
    ((move_value_nonbasic hp.toAdmissible ht hconsistent ρ hv hvs).trans (ht.value v))

include hs

theorem Labelled.pivot {r : Fin m}
    (hattains : t.Attains p τ s (t.basisColumn p s) ρ (some r)) {v : Variable m n}
    (h : t.Labelled p τ v) :
    ((t.move s (finite ρ) (t.column p s)).pivot p (finite τ) phase s r (t.column p s)).Labelled
      p τ v := by
  by_cases hvr : v = t.basis.get r
  · -- the leaving variable is on one of its bounds
    have hlands := hattains.lands hp.toAdmissible ht hconsistent hs
    have hvalue := move_value_basic hp.toAdmissible ht hconsistent ρ hs r
    rw [hvalue] at hlands
    have hnear := leavingStanding_near (τ := τ) (variable_box hp.toAdmissible _)
      (variable_ordered hp _) hlands
    rw [← hvalue, ← point_of_value hvalue] at hnear
    have hstanding : ((t.move s (finite ρ) (t.column p s)).pivot p (finite τ) phase s r
        (t.column p s)).standing.get (t.basis.get r) =
        (t.move s (finite ρ) (t.column p s)).standingAfterLeaving p (finite τ) r :=
      (pivot_standing_get ..).trans (if_pos rfl)
    subst hvr
    exact ⟨fun hv ↦ hnear.1 (hstanding.symm.trans hv), fun hv ↦ hnear.2 (hstanding.symm.trans hv)⟩
  by_cases hvs : v = .structural s
  · apply Labelled.of_basic
    rw [pivot_standing_get, if_pos hvs]
    exact if_neg hvr
  · refine h.of_same ?_ fun hv ↦ point_move hp ht hconsistent ρ hv hvs
    rw [pivot_standing_get, if_neg hvs]
    exact if_neg hvr

theorem Labelled.flip (hattains : t.Attains p τ s (t.basisColumn p s) ρ none) {v : Variable m n}
    (h : t.Labelled p τ v) :
    ((t.move s (finite ρ) (t.column p s)).flip s).Labelled p τ v := by
  by_cases hvs : v = .structural s
  · subst hvs
    cases hattains with
    | crossing l u hlower hupper hstep =>
      have hcrosses := Near.crosses (τ := τ) (x := t.point (.structural s)) hlower hupper
      have hpoint := point_of_value (move_value_entering hp.toAdmissible ht hconsistent ρ hs)
      have hstanding := flip_standing_get (t := t.move s (finite ρ) (t.column p s)) s
        (.structural s)
      rw [if_pos rfl, move_standing] at hstanding
      obtain ⟨hlabel, hdirection⟩ | ⟨hlabel, hdirection⟩ := direction_cases hs
      · rw [hlabel] at hstanding
        rw [hdirection, one_mul] at hpoint
        refine ⟨fun hv ↦ Standing.noConfusion (hstanding.symm.trans hv), fun _ ↦ ?_⟩
        rw [point, flip_value, ← point, hpoint, hstep]
        exact hcrosses.1 (h.atLower hlabel)
      · rw [hlabel] at hstanding
        rw [hdirection, neg_one_mul, ← sub_eq_add_neg] at hpoint
        refine ⟨fun _ ↦ ?_, fun hv ↦ Standing.noConfusion (hstanding.symm.trans hv)⟩
        rw [point, flip_value, ← point, hpoint, hstep]
        exact hcrosses.2 (h.atUpper hlabel)
  · refine h.of_same ?_ fun hv ↦ point_move hp ht hconsistent ρ hv hvs
    rw [flip_standing_get, if_neg hvs, move_standing]

end Moved

end Tableau

/-! ## One iteration -/

namespace State

variable {state next : State ExtendedRational m n} {distance : Variable m n → ℚ} {s : Fin n} {ρ : ℚ}

/-- In one move a variable strays by no more than it moves without being watched over. -/
theorem strays_moved (hp : p.Valid) (hτ : 0 ≤ τ) (hexact : state.tableau.Exact p)
    (hconsistent : state.tableau.Consistent p state.phase)
    (h : state.tableau.Strays p τ distance)
    (hentering : state.entering? p (finite τ) = some s)
    (hstep : (state.limit p (finite τ) s).step = finite ρ)
    (hrespects : state.tableau.Respects p τ s (state.tableau.basisColumn p s) ρ)
    (v : Variable m n) :
    (∀ l, Tableau.lowerBound p v = finite l →
        l - τ - (distance v + state.unwatched p τ v) ≤ (state.moved p (finite τ) s).point v) ∧
      ∀ u, Tableau.upperBound p v = finite u →
        (state.moved p (finite τ) s).point v ≤ u + (distance v + state.unwatched p τ v) := by
  have ht := hexact.toRational
  have hs := entersNonbasic p hτ state s hentering
  have hdistance := h.nonneg v
  obtain ⟨⟨hforward, hwatched⟩, hzero⟩ | hmoved := unwatched_cases hentering v
  · have hmove : state.moved p (finite τ) s =
        state.tableau.move s (finite ρ) (state.tableau.column p s) := by
      rw [moved, hstep]
      rfl
    rw [hstep, zero_eq_finite, finite_le] at hforward
    rw [hzero, add_zero, hmove]
    by_cases hvs : v = .structural s
    · obtain ⟨hlower, hupper⟩ := h.entering hp hτ hs hforward hrespects
      rw [hvs] at hdistance ⊢
      rw [Tableau.point_of_value
        (Tableau.move_value_entering hp.toAdmissible ht hconsistent ρ hs)]
      refine ⟨fun l hl ↦ ?_, fun u hu ↦ ?_⟩
      · have hle := hlower l hl
        linarith
      · have hle := hupper u hu
        linarith
    by_cases hv : state.tableau.standing.get v = .basic
    · obtain ⟨r, rfl⟩ := (hconsistent.basic_iff v).1 hv
      have hrate := hwatched r rfl
      rw [column, Tableau.column_get hp.toAdmissible ht s, magnitude_finite, finite_lt,
        ← Tableau.abs_rate hs] at hrate
      rw [Tableau.point_of_value
        (Tableau.move_value_basic hp.toAdmissible ht hconsistent ρ hs r)]
      exact h.basic hτ hforward hrespects hrate
    · rw [Tableau.point_of_value
        ((Tableau.move_value_nonbasic hp.toAdmissible ht hconsistent ρ hv hvs).trans (ht.value v))]
      exact ⟨h.lower v, h.upper v⟩
  · rw [hmoved]
    have hle := le_abs_self
      ((state.moved p (finite τ) s).point v - state.tableau.point v)
    have hge := neg_abs_le
      ((state.moved p (finite τ) s).point v - state.tableau.point v)
    refine ⟨fun l hl ↦ ?_, fun u hu ↦ ?_⟩
    · have hlower := h.lower v l hl
      linarith
    · have hupper := h.upper v u hu
      linarith

theorem Continues.strays (hp : p.Valid) (hτ : 0 ≤ τ) (h : state.Continues p (finite τ) next)
    (hexact : state.tableau.Exact p) (hconsistent : state.tableau.Consistent p state.phase)
    (hstrays : state.tableau.Strays p τ distance) :
    next.tableau.Strays p τ fun v ↦ distance v + state.unwatched p τ v := by
  have ht := hexact.toRational
  have hnonneg (v : Variable m n) : 0 ≤ distance v + state.unwatched p τ v :=
    add_nonneg (hstrays.nonneg v) (state.unwatched_nonneg v)
  cases h with
  | secondPhase =>
    have hmore : state.tableau.Strays p τ fun v ↦ distance v + state.unwatched p τ v :=
      hstrays.mono fun v ↦ le_add_of_nonneg_right (state.unwatched_nonneg v)
    exact ⟨hmore.nonneg, hmore.lower, hmore.upper,
      fun v ↦ (hmore.labelled v).of_same rfl fun _ ↦ rfl⟩
  | pivot s r hentering hstep hleaving =>
    obtain ⟨ρ, hρ, hattains, hrespects⟩ := State.limit_attains hp.toAdmissible hτ ht hstep
    have hmoved := strays_moved hp hτ hexact hconsistent hstrays hentering hρ hrespects
    rw [hleaving] at hattains
    refine ⟨hnonneg, fun v ↦ (hmoved v).1, fun v ↦ (hmoved v).2, fun v ↦ ?_⟩
    rw [moved, hρ]
    exact (hstrays.labelled v).pivot hp ht hconsistent (entersNonbasic p hτ state s hentering)
      hattains
  | flip s hentering hstep hleaving =>
    obtain ⟨ρ, hρ, hattains, hrespects⟩ := State.limit_attains hp.toAdmissible hτ ht hstep
    have hmoved := strays_moved hp hτ hexact hconsistent hstrays hentering hρ hrespects
    rw [hleaving] at hattains
    refine ⟨hnonneg, fun v ↦ (hmoved v).1, fun v ↦ (hmoved v).2, fun v ↦ ?_⟩
    rw [moved, hρ]
    exact (hstrays.labelled v).flip hp ht hconsistent (entersNonbasic p hτ state s hentering)
      hattains

/-! ## Whole runs -/

/-- From a state on, variables stray by no more than their drift. -/
theorem strays_of_mem_heads (hp : p.Valid) (hτ : 0 ≤ τ) {allowance : ℕ}
    (hexact : state.tableau.Exact p) (hconsistent : state.tableau.Consistent p state.phase)
    (hstrays : state.tableau.Strays p τ distance) {head : State ExtendedRational m n}
    (hhead : head ∈ state.heads p (finite τ) allowance) :
    head.tableau.Strays p τ fun v ↦ distance v + state.drift p τ allowance v := by
  induction allowance generalizing state distance with
  | zero => cases hhead
  | succ allowance ih =>
    have hhere : state.tableau.Strays p τ
        fun v ↦ distance v + state.drift p τ (allowance + 1) v :=
      hstrays.mono fun v ↦ le_add_of_nonneg_right (state.drift_nonneg _ v)
    cases hadvance : state.advance p (finite τ) with
    | stop event result =>
      rw [heads_of_stop hadvance, List.mem_singleton] at hhead
      rw [hhead]
      exact hhere
    | next event next =>
      have hcontinues := continues_of_advance hadvance
      have hdrift (v : Variable m n) : state.drift p τ (allowance + 1) v =
          state.unwatched p τ v + next.drift p τ allowance v := by
        rw [drift, heads_of_next hadvance, List.map_cons, List.sum_cons, drift]
      rw [heads_of_next hadvance, List.mem_cons] at hhead
      rcases hhead with rfl | hhead
      · exact hhere
      · have hnext := ih (hcontinues.exact hp.toAdmissible hτ hexact)
          (hcontinues.consistent (entersNonbasic p hτ) hconsistent)
          (hcontinues.strays hp hτ hexact hconsistent hstrays) hhead
        simp only [hdrift, ← add_assoc]
        exact hnext

end State

/-- At every head of a run on a valid program, variables stray by no more than their drift. -/
theorem strays_of_mem_heads (hp : p.Valid) (hτ : 0 ≤ τ) {allowance : ℕ}
    {head : State ExtendedRational m n} (hhead : head ∈ heads p (finite τ) allowance) :
    head.tableau.Strays p τ (drift p τ allowance) := by
  have hstart := State.strays_of_mem_heads hp hτ (Tableau.start_exact hp.toAdmissible)
    (Tableau.start_consistent p) (Tableau.start_strays hp hτ) hhead
  simp only [zero_add] at hstart
  exact hstart

/-! ## Runs that skip no row -/

/-- Every entry of a pivot column of the run is zero or exceeds the tolerance. -/
def SkipsNoRow (p : Program ExtendedRational m n) (τ : ℚ) (allowance : ℕ) : Prop :=
  ∀ head ∈ heads p (finite τ) allowance, ∀ s, head.entering? p (finite τ) = some s →
    ∀ i, (head.column p s).get i = 0 ∨ finite τ < Arithmetic.magnitude ((head.column p s).get i)

instance (p : Program ExtendedRational m n) (τ : ℚ) (allowance : ℕ) :
    Decidable (SkipsNoRow p τ allowance) :=
  inferInstanceAs (Decidable (∀ head ∈ heads p (finite τ) allowance, ∀ _, _ → ∀ _, _ ∨ _))

/-- Where the ratio test skips no row that moves, the tolerance makes no difference to it. -/
theorem Tableau.Respects.of_no_row_skipped {t : Tableau ExtendedRational m n} {s : Fin n}
    {column : Fin m → ℚ} {ρ : ℚ} (h : t.Respects p τ s column ρ)
    (hs : t.standing.get (.structural s) ≠ .basic)
    (hcolumn : ∀ i, column i = 0 ∨ τ < |column i|) : t.Respects p 0 s column ρ := by
  have hrate (i : Fin m) (hi : t.rate s column i ≠ 0) : τ < |t.rate s column i| := by
    rw [abs_rate hs]
    refine (hcolumn i).resolve_left fun hzero ↦ hi ?_
    rw [rate, hzero, mul_zero]
  refine ⟨h.crossing, fun i u hrises hu ↦ h.rising i u ?_ hu,
    fun i l hfalls hl ↦ h.falling i l ?_ hl⟩
  · have hexceeds := hrate i (by linarith)
    rwa [abs_of_neg (by linarith)] at hexceeds
  · have hexceeds := hrate i hfalls.ne'
    rwa [abs_of_pos hfalls] at hexceeds

theorem State.Continues.bounded_of_no_row_skipped (hp : p.Valid) (hτ : 0 ≤ τ)
    {state next : State ExtendedRational m n} (h : state.Continues p (finite τ) next)
    (hstate : state.Regular p) (hbounded : state.tableau.Bounded p)
    (hcolumn : ∀ s, state.entering? p (finite τ) = some s → ∀ i,
      (state.column p s).get i = 0 ∨ finite τ < Arithmetic.magnitude ((state.column p s).get i)) :
    next.tableau.Bounded p := by
  have ht := hstate.exact.toRational
  have hmoved {s : Fin n} (hentering : state.entering? p (finite τ) = some s) {ρ : ℚ}
      {leaving : Option (Fin m)}
      (hattains : state.tableau.Attains p τ s (state.tableau.basisColumn p s) ρ leaving)
      (hrespects : state.tableau.Respects p τ s (state.tableau.basisColumn p s) ρ) :
      (state.tableau.move s (finite ρ) (state.tableau.column p s)).Bounded p := by
    have hs := entersNonbasic p hτ state s hentering
    refine hbounded.move hp.toAdmissible ht hstate.consistent hstate.placed hs
      (hattains.step_nonneg hp hτ ht hbounded) (hrespects.of_no_row_skipped hs fun i ↦ ?_)
    have hentry := hcolumn s hentering i
    rwa [State.column, Tableau.column_get hp.toAdmissible ht s, zero_eq_finite, finite.injEq,
      magnitude_finite, finite_lt] at hentry
  cases h.proceeds hp.toAdmissible hτ ht with
  | secondPhase => exact ⟨hbounded.lower, hbounded.upper⟩
  | pivot s r ρ hentering hattains hrespects =>
    have hnext := hmoved hentering hattains hrespects
    exact ⟨hnext.lower, hnext.upper⟩
  | flip s ρ hentering hattains hrespects =>
    have hnext := hmoved hentering hattains hrespects
    exact ⟨hnext.lower, hnext.upper⟩

/-- A run that skips no row keeps the bounds, if no box is narrower than the tolerance without being
a point. -/
theorem bounded_of_no_row_skipped (hp : p.Valid) (hτ : 0 ≤ τ) (hwidths : p.WidthsApart τ)
    {allowance : ℕ} (hskips : SkipsNoRow p τ allowance) {head : State ExtendedRational m n}
    (hhead : head ∈ heads p (finite τ) allowance) : head.tableau.Bounded p := by
  refine (State.heads_induction_of_mem (fun state ↦ state.Regular p ∧ state.tableau.Bounded p)
    ?_ ⟨State.start_regular hp.toAdmissible, Tableau.start_bounded hp⟩ head hhead).2
  rintro state hstate next ⟨hregular, hbounded⟩ hnext
  exact ⟨hnext.regular hp.toAdmissible hτ (separated_of_widths hp hwidths) hregular,
    hnext.bounded_of_no_row_skipped hp hτ hregular hbounded (hskips state hstate)⟩

end Simplex

end MixedInteger
