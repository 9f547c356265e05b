import Mathlib.Tactic.SplitIfs
import MixedInteger.Proofs.Exact.Reading
import MixedInteger.Proofs.Simplex.Bookkeeping
import MixedInteger.Search.Fractional

/-!
# The most fractional variable

A rational number is as far from its floor as its fractional part says, and integers have no
distance at all.  Since an index must have a positive distance to take the lead, the search never
branches on a variable that has an integral value, whatever the tolerance.  For this the numbers
need not be exact; it is enough that they can be read.
-/

namespace MixedInteger

open Arithmetic ExtendedRational

namespace Search

/-! ## Distances -/

theorem aboveFloor_finite (q : ℚ) : aboveFloor (finite q) = finite (Int.fract q) := by
  unfold aboveFloor
  rw [floor_finite, finite_sub, magnitude_finite, abs_sub_comm, Int.self_sub_floor,
    abs_of_nonneg (Int.fract_nonneg q)]

theorem belowCeil_finite (q : ℚ) : belowCeil (finite q) = finite (⌈q⌉ - q) := by
  unfold belowCeil
  rw [ceil_finite, finite_sub, magnitude_finite, abs_of_nonneg (sub_nonneg.2 (Int.le_ceil q))]

theorem fractionality_finite (q : ℚ) :
    fractionality (finite q) = finite (min (Int.fract q) (⌈q⌉ - q)) := by
  unfold fractionality
  rw [aboveFloor_finite, belowCeil_finite, lesser_finite]

section Readable

variable {α : Type} [Arithmetic α]

theorem lesser_cases (a b : α) : lesser a b = a ∨ lesser a b = b := by
  unfold lesser
  split_ifs
  · exact .inr rfl
  · exact .inl rfl
  · exact .inr rfl
  · exact .inl rfl

/-- An integer has no distance from the nearer of its floor and its ceiling. -/
theorem fractionality_intCast (reading : Reading α) {a : α} {i : ℤ}
    (ha : reading.value a = finite i) : reading.value (fractionality a) = finite 0 := by
  have hfloor : reading.value (Arithmetic.floor a) = finite i := by
    rw [reading.floor a i ha, Int.floor_intCast]
  have hceil : reading.value (Arithmetic.ceil a) = finite i := by
    rw [reading.ceil a i ha, Int.ceil_intCast]
  unfold fractionality
  rcases lesser_cases (aboveFloor a) (belowCeil a) with habove | hbelow
  · rw [habove]
    exact reading.distance _ _ _ hfloor ha
  · rw [hbelow]
    exact reading.distance _ _ _ hceil ha

/-- A number with a positive distance is no integer. -/
theorem ne_intCast_of_fractionality_pos (reading : Reading α) {a : α} {v : ℚ}
    (ha : reading.value a = finite v) (h : 0 < fractionality a) (i : ℤ) : v ≠ i := by
  rintro rfl
  rw [reading.lt_iff, reading.zero, fractionality_intCast reading ha, finite_lt] at h
  exact lt_irrefl 0 h

end Readable

/-! ## The leading index -/

section Leading

variable {α : Type} [Arithmetic α] {entries : List (α × Bool)}

/-- The greatest distance so far, and the flagged index that has it once it is positive. -/
inductive Foremost (entries : List (α × Bool)) : α × Option (Fin entries.length) → Prop where
  | nobody : Foremost entries (0, none)
  | leader (i : Fin entries.length) (hflag : (entries.get i).2 = true)
      (hapart : 0 < fractionality (entries.get i).1) :
      Foremost entries (fractionality (entries.get i).1, some i)

/-- What is farther off than the leader has a positive distance. -/
theorem Foremost.apart (htrans : ∀ a b c : α, a < b → b < c → a < c)
    {best : α × Option (Fin entries.length)} (h : Foremost entries best) {distance : α}
    (hahead : best.1 < distance) : 0 < distance := by
  cases h with
  | nobody => exact hahead
  | leader i _ hapart => exact htrans _ _ _ hapart hahead

/-- The most fractional index is flagged, and its value has a positive distance. -/
theorem mostFractional_eq_some (htrans : ∀ a b c : α, a < b → b < c → a < c) {values : List α}
    {flags : List Bool} {tolerance : α} {i : Fin (values.zip flags).length}
    (h : mostFractional values flags tolerance = some i) :
    ((values.zip flags).get i).2 = true ∧ 0 < fractionality ((values.zip flags).get i).1 := by
  unfold mostFractional at h
  dsimp only at h
  generalize hbest : Fin.foldl (values.zip flags).length _ _ = best at h
  have hforemost : Foremost (values.zip flags) best := by
    rw [← hbest]
    refine Simplex.foldl_induction (fun _ ↦ Foremost (values.zip flags)) .nobody ?_
    intro i best hbest
    split_ifs with hskip hahead
    · exact hbest
    · simp only [Bool.or_eq_true, Bool.not_eq_true', not_or, Bool.not_eq_false] at hskip
      exact .leader i hskip.1 (hbest.apart htrans hahead)
    · exact hbest
  cases hforemost with
  | nobody => cases h
  | leader k hflag hapart =>
    cases h
    exact ⟨hflag, hapart⟩

/-- While nothing leads, no flagged value beyond the tolerance has had a positive distance. -/
def Unclaimed (entries : List (α × Bool)) (tolerance : α) (k : ℕ)
    (best : α × Option (Fin entries.length)) : Prop :=
  best.2 = none → best.1 = 0 ∧ ∀ i : Fin entries.length, i.val < k → (entries.get i).2 = true →
    ¬ aboveFloor (entries.get i).1 ≤ tolerance → ¬ 0 < fractionality (entries.get i).1

/-- An entry that leaves the lead as it is claims nothing. -/
theorem Unclaimed.succ {tolerance : α} {k : Fin entries.length}
    {best : α × Option (Fin entries.length)} (h : Unclaimed entries tolerance k best)
    (hk : (entries.get k).2 = true → ¬ aboveFloor (entries.get k).1 ≤ tolerance →
      ¬ best.1 < fractionality (entries.get k).1) : Unclaimed entries tolerance (k + 1) best := by
  intro hnone
  obtain ⟨hzero, hrest⟩ := h hnone
  refine ⟨hzero, fun j hj hflag hbeyond ↦ ?_⟩
  rcases Nat.lt_succ_iff_lt_or_eq.1 hj with hlt | heq
  · exact hrest j hlt hflag hbeyond
  · obtain rfl : j = k := Fin.ext heq
    rw [← hzero]
    exact hk hflag hbeyond

/-- Without a most fractional index, no flagged value beyond the tolerance has a positive
distance. -/
theorem mostFractional_eq_none {values : List α} {flags : List Bool} {tolerance : α}
    (h : mostFractional values flags tolerance = none) (i : Fin (values.zip flags).length)
    (hflag : ((values.zip flags).get i).2 = true)
    (hbeyond : ¬ aboveFloor ((values.zip flags).get i).1 ≤ tolerance) :
    ¬ 0 < fractionality ((values.zip flags).get i).1 := by
  unfold mostFractional at h
  dsimp only at h
  generalize hbest : Fin.foldl (values.zip flags).length _ _ = best at h
  have hunclaimed : Unclaimed (values.zip flags) tolerance (values.zip flags).length best := by
    rw [← hbest]
    refine Simplex.foldl_induction (Unclaimed (values.zip flags) tolerance)
      (fun _ ↦ ⟨rfl, by simp⟩) ?_
    intro k best hbest
    split_ifs with hskip hahead
    · refine hbest.succ fun hflag hbeyond ↦ ?_
      rw [hflag, decide_eq_false hbeyond] at hskip
      cases hskip
    · exact fun hnone ↦ nomatch hnone
    · exact hbest.succ fun _ _ ↦ hahead
  exact (hunclaimed h).2 i i.isLt hflag hbeyond

end Leading

/-- The search branches on a variable that must be integral, at a value that is no integer. -/
theorem branchingIndex_eq_some {α : Type} [Arithmetic α] (reading : Reading α) {n : ℕ}
    {x : Vector α n} {integer : Vector Bool n} {tolerance : α} {k : Fin n}
    (h : branchingIndex x integer tolerance = some k) {v : ℚ}
    (hv : reading.value (x.get k) = finite v) : integer.get k = true ∧ ∀ i : ℤ, v ≠ i := by
  unfold branchingIndex at h
  obtain ⟨i, hi, rfl⟩ := Option.map_eq_some_iff.1 h
  obtain ⟨hflag, hapart⟩ := mostFractional_eq_some reading.lt_trans hi
  have hentry : (x.toList.zip integer.toList).get i =
      (x.get (Fin.cast (by simp) i), integer.get (Fin.cast (by simp) i)) := by
    rw [List.get_eq_getElem, List.getElem_zip, Vector.getElem_toList, Vector.getElem_toList]
    rfl
  rw [hentry] at hflag hapart
  exact ⟨hflag, ne_intCast_of_fractionality_pos reading hv hapart⟩

/-- A point is not split when every variable that must be integral has its value within the
tolerance above an integer. -/
theorem fract_le_of_branchingIndex_eq_none {n : ℕ} {x : Vector ExtendedRational n}
    {integer : Vector Bool n} {tolerance : ExtendedRational} (htolerance : 0 ≤ tolerance)
    (h : branchingIndex x integer tolerance = none) {k : Fin n} (hk : integer.get k = true) {v : ℚ}
    (hv : x.get k = finite v) : finite (Int.fract v) ≤ tolerance := by
  have hnone : mostFractional x.toList integer.toList tolerance = none := by
    rwa [branchingIndex, Option.map_eq_none_iff] at h
  have hlength : k.val < (x.toList.zip integer.toList).length := by
    simp
  have hentry : (x.toList.zip integer.toList).get ⟨k, hlength⟩ = (finite v, true) := by
    rw [List.get_eq_getElem, List.getElem_zip, Vector.getElem_toList, Vector.getElem_toList]
    exact Prod.ext hv hk
  have hclose := mostFractional_eq_none hnone ⟨k, hlength⟩
  rw [hentry, aboveFloor_finite, fractionality_finite, zero_eq_finite, finite_lt] at hclose
  by_contra hbeyond
  have hfract : 0 < Int.fract v := by
    refine lt_of_le_of_ne (Int.fract_nonneg v) fun hzero ↦ hbeyond ?_
    rwa [← hzero]
  have hceil : 0 < ⌈v⌉ - v := by
    rw [Int.ceil_eq_add_one_sub_fract hfract.ne']
    linarith [Int.fract_lt_one v]
  exact hclose rfl hbeyond (lt_min hfract hceil)

end Search

end MixedInteger
