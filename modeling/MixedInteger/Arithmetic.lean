/-!
# Arithmetic for linear programming

The simplex method and the tree search are written once, over any number type that offers the
operations of this class.  Two instances matter.  Binary floating point is what a program runs
with: sums round, overflow gives an infinity, and an invalid operation gives a value that compares
false with everything.  Exact rationals with infinities are what statements about optimality speak
of.

The order of a type of numbers need not be total: an undefined value is one that is not at most
itself, and every test here reads as the comparison it is written with.
-/

namespace MixedInteger

/-- Numbers a linear program can be solved in. -/
class Arithmetic (α : Type) extends
    Zero α, One α, Add α, Sub α, Mul α, Div α, Neg α, LT α, LE α where
  /-- The value of an absent upper bound; its negation stands for an absent lower bound. -/
  infinity : α
  /-- The value without its sign. -/
  magnitude : α → α
  /-- The largest integral value that is not above the argument. -/
  floor : α → α
  /-- The smallest integral value that is not below the argument. -/
  ceil : α → α
  /-- The strict order is decidable. -/
  decidableLT : DecidableLT α
  /-- The order is decidable. -/
  decidableLE : DecidableLE α

namespace Arithmetic

variable {α : Type} [Arithmetic α]

instance : DecidableLT α :=
  decidableLT

instance : DecidableLE α :=
  decidableLE

/-! ## Kinds of values -/

/-- An undefined value is not even at most itself. -/
def isUndefined (a : α) : Bool :=
  !decide (a ≤ a)

/-- A finite value lies strictly between the two infinities. -/
def isFinite (a : α) : Bool :=
  decide (-infinity < a) && decide (a < infinity)

/-- An infinite value is at or beyond one of the infinities. -/
def isInfinite (a : α) : Bool :=
  decide (a ≤ -infinity) || decide (infinity ≤ a)

/-- The lesser of two values; an undefined one gives way to the other. -/
def lesser (a b : α) : α :=
  if isUndefined a then b
  else if isUndefined b then a
  else if b < a then b
  else a

/-! ## Ordered sums -/

/-- The sum without terms is the negated zero: it leaves the sign of every term alone, zeros
included, which the zero itself does not when numbers carry a signed zero. -/
def emptySum : α :=
  -0

/-- The sum of `k` terms, added one after the other in the order of their indices.  The order is
part of the definition because additions that round are not associative. -/
def sum {k : Nat} (term : Fin k → α) : α :=
  Fin.foldl k (fun total i ↦ total + term i) emptySum

@[simp]
theorem sum_zero (term : Fin 0 → α) : sum term = emptySum := by
  simp [sum]

theorem sum_succ {k : Nat} (term : Fin (k + 1) → α) :
    sum term = sum (fun i ↦ term i.castSucc) + term (Fin.last k) := by
  simp [sum, Fin.foldl_succ_last]

end Arithmetic

end MixedInteger
