import Mathlib.Algebra.BigOperators.Group.Finset.Basic
import Mathlib.Algebra.Order.BigOperators.Group.Finset
import MixedInteger.Proofs.Program.Tighten

/-!
# Cells of a program

The cells of a program are the integral values that its variables can take together, between their
bounds rounded outwards; only variables that must be integral count.  Rounding outwards makes the
number of cells additive: when a program is split between its bounds at a value that is no integer,
each part has a cell and the two parts together have as many as the whole.
-/

open scoped BigOperators

namespace MixedInteger

open Arithmetic ExtendedRational

namespace Program

variable {m n : ℕ} {p : Program ExtendedRational m n} {k : Fin n} {v l u : ℚ}

/-- The number of integers between two finite bounds rounded outwards. -/
def spread (lower upper : ExtendedRational) : ℕ :=
  (⌈upper.rational⌉ + 1 - ⌊lower.rational⌋).toNat

/-- What a variable contributes to the number of cells. -/
def spreadOf (p : Program ExtendedRational m n) (j : Fin n) : ℕ :=
  if p.integer.get j = true then spread (p.lower.get j) (p.upper.get j) else 1

/-- The number of cells. -/
def cells (p : Program ExtendedRational m n) : ℕ :=
  ∏ j, p.spreadOf j

/-- Every variable that must be integral has two finite bounds. -/
def IntegersBounded (p : Program ExtendedRational m n) : Prop :=
  ∀ j, p.integer.get j = true → ∃ l u, p.lower.get j = finite l ∧ p.upper.get j = finite u

theorem IntegersBounded.tighten (h : p.IntegersBounded) (k : Fin n) (v : ℚ) (side : Side) :
    (p.tighten k (finite v) side).IntegersBounded := by
  intro j hj
  rw [tighten_integer] at hj
  obtain ⟨l, u, hl, hu⟩ := h j hj
  rw [tighten_lower_get, tighten_upper_get, floor_finite, ceil_finite, hl, hu]
  split_ifs <;> exact ⟨_, _, rfl, rfl⟩

theorem spread_pos (h : l ≤ u) : 0 < spread (finite l) (finite u) := by
  have hrounded : ⌊l⌋ ≤ ⌈u⌉ := Int.cast_le.1 ((Int.floor_le l).trans (h.trans (Int.le_ceil u)))
  unfold spread
  simp only [rational_finite]
  omega

/-- A program whose bounds do not cross has a cell. -/
theorem cells_pos (h : p.IntegersBounded) (hordered : p.Ordered) : 0 < p.cells := by
  unfold cells
  refine Finset.prod_pos fun j _ ↦ ?_
  unfold spreadOf
  split_ifs with hj
  · obtain ⟨l, u, hl, hu⟩ := h j hj
    have hle := hordered j
    rw [hl, hu] at hle ⊢
    exact spread_pos (finite_le.1 hle)
  · exact Nat.one_pos

/-- What all variables but one contribute. -/
def otherCells (p : Program ExtendedRational m n) (k : Fin n) : ℕ :=
  ∏ j ∈ Finset.univ.erase k, p.spreadOf j

theorem cells_eq (hk : p.integer.get k = true) :
    p.cells = spread (p.lower.get k) (p.upper.get k) * p.otherCells k := by
  unfold cells otherCells
  rw [← Finset.mul_prod_erase _ _ (Finset.mem_univ k), spreadOf, if_pos hk]

/-- A split leaves the contribution of all other variables alone. -/
theorem otherCells_tighten (value : ExtendedRational) (side : Side) :
    (p.tighten k value side).otherCells k = p.otherCells k := by
  unfold otherCells
  apply Finset.prod_congr rfl
  intro j hj
  have hjk : j ≠ k := Finset.ne_of_mem_erase hj
  unfold spreadOf
  rw [tighten_integer, tighten_lower_get, tighten_upper_get]
  simp only [hjk, and_false, if_false]

theorem cells_tighten_down (hk : p.integer.get k = true) (hl : p.lower.get k = finite l) :
    (p.tighten k (finite v) .down).cells = (⌊v⌋ + 1 - ⌊l⌋).toNat * p.otherCells k := by
  rw [cells_eq (by rw [tighten_integer, hk]), otherCells_tighten, tighten_lower_get,
    tighten_upper_get, if_neg (by simp), if_pos ⟨rfl, rfl⟩, hl, floor_finite, spread]
  simp only [rational_finite, Int.ceil_intCast]

theorem cells_tighten_up (hk : p.integer.get k = true) (hu : p.upper.get k = finite u) :
    (p.tighten k (finite v) .up).cells = (⌈u⌉ + 1 - ⌈v⌉).toNat * p.otherCells k := by
  rw [cells_eq (by rw [tighten_integer, hk]), otherCells_tighten, tighten_lower_get,
    tighten_upper_get, if_pos ⟨rfl, rfl⟩, if_neg (by simp), hu, ceil_finite, spread]
  simp only [rational_finite, Int.floor_intCast]

/-- Rounding a number that is no integer leads to consecutive integers. -/
theorem ceil_eq_floor_add_one (hv : ∀ i : ℤ, v ≠ i) : ⌈v⌉ = ⌊v⌋ + 1 := by
  have hlt : (⌊v⌋ : ℚ) < ⌈v⌉ :=
    ((Int.floor_le v).lt_of_ne (hv _).symm).trans_le (Int.le_ceil v)
  have hle := Int.ceil_le_floor_add_one v
  have hlt' : ⌊v⌋ < ⌈v⌉ := Int.cast_lt.1 hlt
  omega

/-- A split between the bounds, at a value that is no integer, shares out the cells: each part has
one, and no cell is counted twice. -/
theorem cells_split (h : p.IntegersBounded) (hcells : 0 < p.cells) {x : Fin n → ℚ}
    (hx : p.Within x) (hk : p.integer.get k = true) (hapart : ∀ i : ℤ, x k ≠ i) :
    0 < (p.tighten k (finite (x k)) .down).cells ∧ 0 < (p.tighten k (finite (x k)) .up).cells ∧
      (p.tighten k (finite (x k)) .down).cells + (p.tighten k (finite (x k)) .up).cells =
        p.cells := by
  obtain ⟨l, u, hl, hu⟩ := h k hk
  have hlower := hx.lower k
  have hupper := hx.upper k
  rw [hl, finite_le] at hlower
  rw [hu, finite_le] at hupper
  have hround := ceil_eq_floor_add_one hapart
  have hfloor : ⌊l⌋ ≤ ⌊x k⌋ := Int.floor_le_floor hlower
  have hceil : ⌈x k⌉ ≤ ⌈u⌉ := Int.ceil_le_ceil hupper
  rw [cells_eq hk] at hcells
  have hother : 0 < p.otherCells k := Nat.pos_of_mul_pos_left hcells
  rw [cells_tighten_down hk hl, cells_tighten_up hk hu, cells_eq hk, hl, hu, ← Nat.add_mul]
  refine ⟨Nat.mul_pos (by omega) hother, Nat.mul_pos (by omega) hother, ?_⟩
  congr 1
  unfold spread
  simp only [rational_finite]
  omega

end Program

end MixedInteger
