import MixedInteger.Arithmetic

/-!
# Exact arithmetic

The rational numbers, completed by two infinities for absent bounds and by one undefined value for
the results that have no meaning: the difference of equal infinities, zero times infinity, the
quotient of infinities and of zeros.  Comparisons with the undefined value are false.

Nothing rounds here, so this is the arithmetic in which a basis inverse is an inverse and a row of
constraints holds or does not.
-/

namespace MixedInteger

/-- A rational number, an infinity, or no value. -/
inductive ExtendedRational where
  | undefined
  | negativeInfinity
  | finite (value : Rat)
  | positiveInfinity
  deriving DecidableEq, Repr

namespace ExtendedRational

/-! ## Operations -/

/-- The opposite value. -/
def opposite : ExtendedRational → ExtendedRational
  | undefined => undefined
  | negativeInfinity => positiveInfinity
  | finite q => finite (-q)
  | positiveInfinity => negativeInfinity

/-- Addition; opposite infinities have no sum. -/
def add : ExtendedRational → ExtendedRational → ExtendedRational
  | undefined, _ => undefined
  | _, undefined => undefined
  | finite p, finite q => finite (p + q)
  | finite _, negativeInfinity => negativeInfinity
  | finite _, positiveInfinity => positiveInfinity
  | negativeInfinity, positiveInfinity => undefined
  | positiveInfinity, negativeInfinity => undefined
  | negativeInfinity, _ => negativeInfinity
  | positiveInfinity, _ => positiveInfinity

/-- Infinitely many times a rational: the sign decides, and zero has no such multiple. -/
def infinitelyMany (q : Rat) : ExtendedRational :=
  if 0 < q then positiveInfinity
  else if q < 0 then negativeInfinity
  else undefined

/-- Multiplication. -/
def mul : ExtendedRational → ExtendedRational → ExtendedRational
  | undefined, _ => undefined
  | _, undefined => undefined
  | finite p, finite q => finite (p * q)
  | finite p, positiveInfinity => infinitelyMany p
  | finite p, negativeInfinity => infinitelyMany (-p)
  | positiveInfinity, finite q => infinitelyMany q
  | negativeInfinity, finite q => infinitelyMany (-q)
  | positiveInfinity, positiveInfinity => positiveInfinity
  | positiveInfinity, negativeInfinity => negativeInfinity
  | negativeInfinity, positiveInfinity => negativeInfinity
  | negativeInfinity, negativeInfinity => positiveInfinity

/-- Division; a nonzero value divided by zero is infinite with the sign of the dividend. -/
def div : ExtendedRational → ExtendedRational → ExtendedRational
  | undefined, _ => undefined
  | _, undefined => undefined
  | finite p, finite q => if q = 0 then infinitelyMany p else finite (p / q)
  | finite _, _ => finite 0
  | positiveInfinity, finite q => if q < 0 then negativeInfinity else positiveInfinity
  | negativeInfinity, finite q => if q < 0 then positiveInfinity else negativeInfinity
  | _, _ => undefined

/-- The strict order. -/
def precedes : ExtendedRational → ExtendedRational → Bool
  | finite p, finite q => decide (p < q)
  | negativeInfinity, finite _ => true
  | negativeInfinity, positiveInfinity => true
  | finite _, positiveInfinity => true
  | _, _ => false

/-- The order; it is false on an undefined operand and otherwise total. -/
def precedesOrEquals : ExtendedRational → ExtendedRational → Bool
  | undefined, _ => false
  | _, undefined => false
  | finite p, finite q => decide (p ≤ q)
  | negativeInfinity, _ => true
  | _, positiveInfinity => true
  | _, _ => false

/-- The value without its sign. -/
def magnitude : ExtendedRational → ExtendedRational
  | undefined => undefined
  | finite q => finite (if q < 0 then -q else q)
  | _ => positiveInfinity

/-- Rounds a rational by `round` and leaves every other value as it is. -/
def roundWith (round : Rat → Int) : ExtendedRational → ExtendedRational
  | finite q => finite (round q)
  | a => a

instance : Arithmetic ExtendedRational where
  zero := finite 0
  one := finite 1
  add := add
  sub a b := add a (opposite b)
  mul := mul
  div := div
  neg := opposite
  lt a b := precedes a b = true
  le a b := precedesOrEquals a b = true
  infinity := positiveInfinity
  magnitude := magnitude
  floor := roundWith Rat.floor
  ceil := roundWith Rat.ceil
  decidableLT a b := inferInstanceAs (Decidable (precedes a b = true))
  decidableLE a b := inferInstanceAs (Decidable (precedesOrEquals a b = true))

end ExtendedRational

end MixedInteger
