import MixedInteger.Proofs.Exact.Rational

/-!
# Readings

What a search does with its nodes takes little from the numbers: it compares values and rounds
them.  A reading says which extended rational numbers the values of a number type stand for, and
that those few operations are exact.  Exact arithmetic reads as itself.  In binary floating point,
too, comparisons are exact, a finite value has its floor and its ceiling among the values, and equal
values have the difference zero; sums and products, which do round, are not asked about.
-/

namespace MixedInteger

open Arithmetic ExtendedRational

/-- The numbers that the values of a number type stand for. -/
structure Reading (α : Type) [Arithmetic α] where
  value : α → ExtendedRational
  zero : value 0 = finite 0
  lt_iff : ∀ a b, a < b ↔ value a < value b
  floor : ∀ a q, value a = finite q → value (Arithmetic.floor a) = finite ⌊q⌋
  ceil : ∀ a q, value a = finite q → value (Arithmetic.ceil a) = finite ⌈q⌉
  distance : ∀ a b q, value a = finite q → value b = finite q →
    value (magnitude (a - b)) = finite 0

namespace Reading

/-- Exact arithmetic, where all values stand for themselves. -/
def exact : Reading ExtendedRational where
  value a := a
  zero := rfl
  lt_iff _ _ := Iff.rfl
  floor := by
    rintro _ q rfl
    exact floor_finite q
  ceil := by
    rintro _ q rfl
    exact ceil_finite q
  distance := by
    rintro _ _ q rfl rfl
    rw [finite_sub, sub_self, magnitude_finite, abs_zero]

variable {α : Type} [Arithmetic α]

/-- The strict order of values that can be read is transitive. -/
theorem lt_trans (reading : Reading α) (a b c : α) (hab : a < b) (hbc : b < c) : a < c := by
  rw [reading.lt_iff] at hab hbc ⊢
  exact ExtendedRational.lt_trans hab hbc

end Reading

end MixedInteger
