import MixedInteger.Proofs.EarliestLeast
import MixedInteger.Proofs.Search.Fractional

/-!
# Which variable is the most fractional

A flagged value that is no integer can be branched on if it exceeds its floor by more than the
tolerance.  Among these values the search takes the first of those that are farthest from an
integer.  How far a value exceeds its floor decides whether it takes part, and how near the nearer
of floor and ceiling is decides whether it wins: a value just below an integer takes part and wins
only if nothing else does.

A tolerance may be negative.  Then integers pass the first test, but they have no distance from an
integer and never take the lead.
-/

namespace MixedInteger

open Arithmetic ExtendedRational

namespace Search

/-! ## Eligible indices -/

/-- The distance of a number from the nearest integer. -/
def nearest (q : ℚ) : ℚ :=
  min (q - ⌊q⌋) (⌈q⌉ - q)

/-- An index with a flagged value that is no integer and whose distance from its floor exceeds the
tolerance. -/
structure Eligible (values : List ℚ) (flags : List Bool) (τ : ℚ) (i : ℕ) (q : ℚ) : Prop where
  value : values[i]? = some q
  flag : flags[i]? = some true
  beyond : τ < |⌊q⌋ - q|
  split : ∀ k : ℤ, q ≠ k

theorem nearest_intCast (k : ℤ) : nearest k = 0 := by
  rw [nearest, Int.floor_intCast, Int.ceil_intCast, sub_self, min_self]

/-- Exactly the integers have no distance from the nearest one. -/
theorem nearest_pos_iff {q : ℚ} : 0 < nearest q ↔ ∀ k : ℤ, q ≠ k := by
  constructor
  · rintro h k rfl
    exact h.ne' (nearest_intCast k)
  · intro h
    apply lt_min
    · exact sub_pos.2 (lt_of_le_of_ne (Int.floor_le q) (h ⌊q⌋).symm)
    · exact sub_pos.2 (lt_of_le_of_ne (Int.le_ceil q) (h ⌈q⌉))

theorem fractionality_eq_nearest (q : ℚ) : fractionality (finite q) = finite (nearest q) :=
  fractionality_finite q

theorem aboveFloor_le_iff {q τ : ℚ} : aboveFloor (finite q) ≤ finite τ ↔ ¬ τ < |⌊q⌋ - q| := by
  rw [aboveFloor, floor_finite, finite_sub, magnitude_finite, finite_le, not_lt]

/-! ## The scan -/

section Scan

variable {values : List ℚ} {flags : List Bool} {τ : ℚ}

theorem length_entries (values : List ℚ) (flags : List Bool) :
    ((values.map finite).zip flags).length = min values.length flags.length := by
  rw [List.length_zip, List.length_map]

/-- Values and flags are read as far as there are both. -/
theorem Eligible.lt_length {i : ℕ} {q : ℚ} (h : Eligible values flags τ i q) :
    i < ((values.map finite).zip flags).length := by
  obtain ⟨hvalue, -⟩ := List.getElem?_eq_some_iff.1 h.value
  obtain ⟨hflag, -⟩ := List.getElem?_eq_some_iff.1 h.flag
  rw [length_entries]
  exact lt_min hvalue hflag

/-- The value of an entry of the scan. -/
def scanned (i : Fin ((values.map finite).zip flags).length) : ℚ :=
  values[i.val]?.getD 0

theorem getElem?_scanned (i : Fin ((values.map finite).zip flags).length) :
    values[i.val]? = some (scanned i) := by
  obtain ⟨hvalue, -⟩ := lt_min_iff.1 (i.isLt.trans_eq (length_entries values flags))
  rw [scanned, List.getElem?_eq_getElem hvalue, Option.getD_some]

theorem exists_get_entries (i : Fin ((values.map finite).zip flags).length) :
    ∃ flag, flags[i.val]? = some flag ∧
      ((values.map finite).zip flags).get i = (finite (scanned i), flag) := by
  obtain ⟨hvalue, hflag⟩ := lt_min_iff.1 (i.isLt.trans_eq (length_entries values flags))
  refine ⟨flags[i.val], List.getElem?_eq_getElem hflag, ?_⟩
  rw [List.get_eq_getElem, List.getElem_zip, List.getElem_map, scanned,
    List.getElem?_eq_getElem hvalue, Option.getD_some]

/-- What the scan has after `k` entries: the greatest distance from an integer among the eligible
indices, and the first index that has it. -/
def Scans (values : List ℚ) (flags : List Bool) (τ : ℚ) (k : ℕ)
    (state : ExtendedRational × Option (Fin ((values.map finite).zip flags).length)) : Prop :=
  ∃ best, state.1 = finite best ∧
    EarliestLeast (fun i ↦ Eligible values flags τ i.val (scanned i))
      (fun i ↦ OrderDual.toDual (nearest (scanned i))) (OrderDual.toDual 0) k
      (OrderDual.toDual best) state.2

/-- A flagged entry that is not within the tolerance of its floor is not passed over. -/
theorem skips_iff {flag : Bool} {q : ℚ} :
    (!flag || decide (aboveFloor (finite q) ≤ finite τ)) = true ↔
      ¬ (flag = true ∧ τ < |⌊q⌋ - q|) := by
  rw [Bool.or_eq_true, Bool.not_eq_true', decide_eq_true_eq, aboveFloor_le_iff, not_and_or,
    Bool.not_eq_true]

theorem mostFractional_scans (values : List ℚ) (flags : List Bool) (τ : ℚ) :
    ∃ state, Scans values flags τ ((values.map finite).zip flags).length state ∧
      mostFractional (values.map finite) flags (finite τ) = state.2 := by
  refine ⟨_, ?_, rfl⟩
  refine Simplex.foldl_induction (Scans values flags τ) ⟨0, rfl, .start⟩ ?_
  rintro i ⟨_, index⟩ ⟨best, rfl, hbest⟩
  obtain ⟨flag, hflag, hentry⟩ := exists_get_entries i
  rw [hentry]
  simp only [skips_iff, fractionality_eq_nearest, finite_lt]
  split_ifs with hcounts hahead
  · -- what is ahead has a positive distance, since the distances so far are not negative
    obtain ⟨rfl, hbeyond⟩ := hcounts
    have hpositive : 0 < nearest (scanned i) := lt_of_le_of_lt hbest.le_seed hahead
    exact ⟨_, rfl, hbest.take
      ⟨getElem?_scanned i, hflag, hbeyond, nearest_pos_iff.1 hpositive⟩ hahead⟩
  · exact ⟨best, rfl, hbest.pass fun _ ↦ not_lt.1 hahead⟩
  · refine ⟨best, rfl, hbest.pass fun heligible ↦ absurd ⟨?_, heligible.beyond⟩ hcounts⟩
    exact Option.some.inj (hflag.symm.trans heligible.flag)

/-- The least index of a kind is found among the indices of a scan that reaches all of the kind. -/
theorem isLeast_val {N : ℕ} {P : ℕ → Prop} (hP : ∀ i, P i → i < N) {s : Fin N} :
    IsLeast {i | P i} s.val ↔ IsLeast {i : Fin N | P i.val} s := by
  refine and_congr_right fun _ ↦ ⟨fun h i hi ↦ h hi, fun h i hi ↦ ?_⟩
  exact h (a := ⟨i, hP i hi⟩) hi

/-- An index that the search prefers to all others: eligible, and as far from an integer as any
eligible index. -/
def Farthest (values : List ℚ) (flags : List Bool) (τ : ℚ) (i : ℕ) : Prop :=
  ∃ q, Eligible values flags τ i q ∧ ∀ j r, Eligible values flags τ j r → nearest r ≤ nearest q

/-- The scan comes by every eligible index. -/
theorem Eligible.exists_scanned {i : ℕ} {q : ℚ} (h : Eligible values flags τ i q) :
    ∃ k : Fin ((values.map finite).zip flags).length, k.val = i ∧ scanned k = q :=
  ⟨⟨i, h.lt_length⟩, rfl, Option.some.inj ((getElem?_scanned _).symm.trans h.value)⟩

theorem farthest_iff (i : Fin ((values.map finite).zip flags).length) :
    Farthest values flags τ i.val ↔ Eligible values flags τ i.val (scanned i) ∧
      ∀ j : Fin ((values.map finite).zip flags).length, Eligible values flags τ j.val (scanned j) →
        OrderDual.toDual (nearest (scanned i)) ≤ OrderDual.toDual (nearest (scanned j)) := by
  constructor
  · rintro ⟨q, hq, hall⟩
    obtain rfl : scanned i = q := Option.some.inj ((getElem?_scanned i).symm.trans hq.value)
    exact ⟨hq, fun j hj ↦ hall j _ hj⟩
  · rintro ⟨hi, hall⟩
    refine ⟨_, hi, fun j r hr ↦ ?_⟩
    obtain ⟨j, rfl, rfl⟩ := hr.exists_scanned
    exact hall j hr

theorem mostFractional_eq_none_iff :
    mostFractional (values.map finite) flags (finite τ) = none ↔
      ∀ i q, ¬ Eligible values flags τ i q := by
  obtain ⟨state, ⟨best, -, hleast⟩, hstate⟩ := mostFractional_scans values flags τ
  rw [hstate, hleast.eq_none_iff]
  constructor
  · intro h i q hq
    obtain ⟨i, rfl, rfl⟩ := hq.exists_scanned
    exact (h i hq).not_gt (nearest_pos_iff.2 hq.split)
  · exact fun h i hi ↦ absurd hi (h _ _)

theorem mostFractional_eq_some_iff {s : Fin ((values.map finite).zip flags).length} :
    mostFractional (values.map finite) flags (finite τ) = some s ↔
      IsLeast {i | Farthest values flags τ i} s.val := by
  obtain ⟨state, ⟨best, -, hleast⟩, hstate⟩ := mostFractional_scans values flags τ
  rw [hstate, hleast.eq_some_iff, isLeast_val fun i ⟨_, hi, _⟩ ↦ hi.lt_length]
  simp only [farthest_iff]
  apply and_iff_right_of_imp
  exact fun h ↦ nearest_pos_iff.2 h.1.1.split

end Scan

/-! ## The choice -/

/-- The index of the most fractional variable, if there is one. -/
def chosen (values : List ℚ) (flags : List Bool) (τ : ℚ) : Option ℕ :=
  (mostFractional (values.map finite) flags (finite τ)).map Fin.val

/-- The search finds nothing to branch on exactly if no index is eligible, and otherwise the first
of the eligible indices that are farthest from an integer.  So with a tolerance that is not
negative, every flagged value exceeds its floor by at most the tolerance if nothing is found, and
with any tolerance an index that is found has both a value and a flag, and the value is no
integer. -/
theorem mostFractional_farthest (values : List ℚ) (flags : List Bool) (τ : ℚ) :
    (chosen values flags τ = none ↔ ∀ i q, ¬ Eligible values flags τ i q) ∧
    (∀ i, chosen values flags τ = some i ↔ IsLeast {i | Farthest values flags τ i} i) ∧
    (0 ≤ τ → chosen values flags τ = none →
      ∀ (i : ℕ) (q : ℚ), values[i]? = some q → flags[i]? = some true → q - ⌊q⌋ ≤ τ) ∧
    ∀ i, chosen values flags τ = some i →
      i < values.length ∧ i < flags.length ∧ flags[i]? = some true ∧
        ∃ q, values[i]? = some q ∧ ∀ k : ℤ, q ≠ k := by
  have hnone : chosen values flags τ = none ↔ ∀ i q, ¬ Eligible values flags τ i q := by
    rw [chosen, Option.map_eq_none_iff, mostFractional_eq_none_iff]
  have hsome (i : ℕ) :
      chosen values flags τ = some i ↔ IsLeast {i | Farthest values flags τ i} i := by
    rw [chosen, Option.map_eq_some_iff]
    constructor
    · rintro ⟨s, hs, rfl⟩
      exact mostFractional_eq_some_iff.1 hs
    · intro hi
      obtain ⟨q, hq, -⟩ := hi.1
      exact ⟨⟨i, hq.lt_length⟩, mostFractional_eq_some_iff.2 hi, rfl⟩
  refine ⟨hnone, hsome, fun hτ h i q hvalue hflag ↦ ?_, fun i hi ↦ ?_⟩
  · by_contra hbeyond
    have hfract : τ < q - ⌊q⌋ := not_le.1 hbeyond
    refine hnone.1 h i q ⟨hvalue, hflag, ?_, fun k hk ↦ ?_⟩
    · rwa [abs_sub_comm, abs_of_nonneg (hτ.trans hfract.le)]
    · rw [hk, Int.floor_intCast, sub_self] at hfract
      exact hfract.not_ge hτ
  · obtain ⟨q, hq, -⟩ := ((hsome i).1 hi).1
    have hlength := hq.lt_length
    rw [length_entries, lt_min_iff] at hlength
    exact ⟨hlength.1, hlength.2, hq.flag, q, hq.value, hq.split⟩

/-- With a tolerance that even integers exceed, a value without a flag, an integer, two values that
are equally far from an integer, and a value beyond the end of the flags: the first of the two is
chosen.  With a tolerance of an eighth, a value that exceeds its floor by less is left alone, and
one just below an integer is chosen if it is flagged. -/
theorem mostFractional_farthest_of_mixed :
    IsLeast {i | Farthest [1 / 2, 3, 7 / 4, 9 / 4, 5 / 2] [false, true, true, true] (-1) i} 2 ∧
    IsLeast {i | Farthest [33 / 32, 63 / 64] [true, true] (1 / 8) i} 1 ∧
    (0 : ℚ) ≤ 1 / 8 ∧
    (∀ i q, ¬ Eligible [33 / 32, 63 / 64] [true, false] (1 / 8) i q) ∧
    (33 / 32 : ℚ) - ⌊(33 / 32 : ℚ)⌋ ≤ 1 / 8 := by
  have hnone : chosen [33 / 32, 63 / 64] [true, false] (1 / 8) = none := by
    with_unfolding_all decide
  have hτ : (0 : ℚ) ≤ 1 / 8 := by norm_num
  refine ⟨((mostFractional_farthest _ _ _).2.1 2).1 (by with_unfolding_all decide),
    ((mostFractional_farthest _ _ _).2.1 1).1 (by with_unfolding_all decide), hτ,
    (mostFractional_farthest _ _ _).1.1 hnone,
    (mostFractional_farthest _ _ _).2.2.1 hτ hnone 0 _ rfl rfl⟩

end Search

end MixedInteger
