import Mathlib.Order.Bounds.Basic
import Mathlib.Order.Fin.Basic

/-!
# The first of the least values

A scan over indices that starts with a seed and gives way only to a smaller value ends with the
least value it has met and with the first index that has it; if no value is below the seed, it ends
with the seed and without an index.  Some of the indices may not count.  Scans for a greatest value
are the same in the opposite order.
-/

namespace MixedInteger

variable {β : Type} [LinearOrder β] {n : ℕ}

theorem forall_lt_succ {P : Fin n → Prop} {i : Fin n} :
    (∀ j : Fin n, j.val < i.val + 1 → P j) ↔ (∀ j : Fin n, j.val < i.val → P j) ∧ P i := by
  constructor
  · exact fun h ↦ ⟨fun j hj ↦ h j (Nat.lt_succ_of_lt hj), h i (Nat.lt_succ_self _)⟩
  · rintro ⟨hbefore, hlast⟩ j hj
    rcases Nat.lt_succ_iff_lt_or_eq.1 hj with hlt | heq
    · exact hbefore j hlt
    · rwa [Fin.ext heq]

/-- The least value among a seed and the first `k` indices that count, and the first index that has
it unless it is the seed. -/
inductive EarliestLeast (counts : Fin n → Prop) (value : Fin n → β) (seed : β) (k : ℕ) :
    β → Option (Fin n) → Prop where
  | nobody (hseed : ∀ i : Fin n, i.val < k → counts i → seed ≤ value i) :
      EarliestLeast counts value seed k seed none
  | leader (s : Fin n) (hcounts : counts s) (hseed : value s < seed)
      (hleast : ∀ i : Fin n, i.val < k → counts i → value s ≤ value i)
      (hfirst : ∀ i < s, counts i → value s < value i) :
      EarliestLeast counts value seed k (value s) (some s)

namespace EarliestLeast

variable {counts : Fin n → Prop} {value : Fin n → β} {seed best : β} {index : Option (Fin n)}
  {k : ℕ} {i : Fin n}

theorem start : EarliestLeast counts value seed 0 seed none :=
  .nobody fun _ hi ↦ absurd hi (Nat.not_lt_zero _)

theorem le_seed (h : EarliestLeast counts value seed k best index) : best ≤ seed := by
  cases h with
  | nobody => exact le_rfl
  | leader s _ hseed => exact hseed.le

theorem le_value (h : EarliestLeast counts value seed k best index) (hi : i.val < k)
    (hcounts : counts i) : best ≤ value i := by
  cases h with
  | nobody hseed => exact hseed i hi hcounts
  | leader s _ _ hleast => exact hleast i hi hcounts

/-- An index that does not count, or whose value is not smaller, changes nothing. -/
theorem pass (h : EarliestLeast counts value seed i.val best index)
    (hi : counts i → best ≤ value i) : EarliestLeast counts value seed (i.val + 1) best index := by
  cases h with
  | nobody hseed => exact .nobody (forall_lt_succ.2 ⟨hseed, hi⟩)
  | leader s hcounts hseed hleast hfirst =>
    exact .leader s hcounts hseed (forall_lt_succ.2 ⟨hleast, hi⟩) hfirst

/-- An index with a smaller value takes the lead. -/
theorem take (h : EarliestLeast counts value seed i.val best index) (hcounts : counts i)
    (hi : value i < best) : EarliestLeast counts value seed (i.val + 1) (value i) (some i) := by
  refine .leader i hcounts (hi.trans_le h.le_seed) (forall_lt_succ.2 ⟨?_, fun _ ↦ le_rfl⟩) ?_
  · exact fun j hj hcounts ↦ hi.le.trans (h.le_value hj hcounts)
  · exact fun j hj hcounts ↦ hi.trans_le (h.le_value hj hcounts)

/-- A scan of all indices ends without one if no index that counts is below the seed. -/
theorem eq_none_iff (h : EarliestLeast counts value seed n best index) :
    index = none ↔ ∀ i, counts i → seed ≤ value i := by
  cases h with
  | nobody hseed => exact iff_of_true rfl fun i ↦ hseed i i.isLt
  | leader s hcounts hseed =>
    exact iff_of_false nofun fun hall ↦ (hall s hcounts).not_gt hseed

/-- A scan of all indices ends with the first of those that count and have the least value. -/
theorem eq_some_iff (h : EarliestLeast counts value seed n best index) {s : Fin n} :
    index = some s ↔
      value s < seed ∧ IsLeast {i | counts i ∧ ∀ j, counts j → value i ≤ value j} s := by
  cases h with
  | nobody hseed =>
    refine iff_of_false nofun ?_
    rintro ⟨hs, ⟨hcounts, -⟩, -⟩
    exact (hseed s s.isLt hcounts).not_gt hs
  | leader r hcounts hseed hleast hfirst =>
    have hr : r ∈ {i | counts i ∧ ∀ j, counts j → value i ≤ value j} :=
      ⟨hcounts, fun j ↦ hleast j j.isLt⟩
    rw [Option.some.injEq]
    constructor
    · rintro rfl
      refine ⟨hseed, hr, fun i hi ↦ not_lt.1 fun hlt ↦ ?_⟩
      exact (hi.2 r hcounts).not_gt (hfirst i hlt hi.1)
    · rintro ⟨-, hs, hfirst'⟩
      refine le_antisymm (not_lt.1 fun hlt ↦ ?_) (hfirst' hr)
      exact (hs.2 r hcounts).not_gt (hfirst s hlt hs.1)

end EarliestLeast

end MixedInteger
