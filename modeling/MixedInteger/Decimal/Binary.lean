import MixedInteger.Decimal.Digits

/-!
# Binary values

A finite binary64 value is a sign and a magnitude `m * 2 ^ q` with natural `m`.  Everything that
writes numbers starts from this form, in which a value is compared with decimals by multiplying
natural numbers and nothing rounds.

The numbers that round to a magnitude form an interval: half of the gap to each neighbour, where
the ends belong to it exactly when `m` is even.  Below a power of two the gap is half as wide as
above it.
-/

namespace MixedInteger

/-- The decimal number `digits * 10 ^ exponent`. -/
structure Decimal where
  digits : Nat
  exponent : Int
  deriving DecidableEq, Repr

namespace Decimal

/-- A power of two. -/
def twoTo (k : Nat) : Nat :=
  Nat.pow 2 k

/-- The magnitude `m * 2 ^ q` of a finite binary64 value. -/
structure Binary where
  m : Nat
  q : Int
  /-- The neighbour below is half as far away as the one above. -/
  narrowBelow : Bool
  deriving DecidableEq, Repr

/-- What a binary64 value stands for. -/
inductive Value where
  | undefined
  | infinite (negative : Bool)
  | finite (negative : Bool) (magnitude : Binary)
  deriving DecidableEq, Repr

/-- The magnitude with the given exponent and fraction fields. -/
def Binary.ofFields (exponent fraction : Nat) : Binary :=
  if exponent = 0 then { m := fraction, q := -1074, narrowBelow := false }
  else
    { m := twoTo 52 + fraction
      q := (exponent : Int) - 1075
      narrowBelow := decide (fraction = 0 ∧ 1 < exponent) }

/-- The value with the given bits. -/
def Value.ofBits (bits : Nat) : Value :=
  let negative := decide (twoTo 63 ≤ bits)
  let exponent := bits / twoTo 52 % twoTo 11
  let fraction := bits % twoTo 52
  if exponent = 2047 then
    if fraction = 0 then .infinite negative else .undefined
  else .finite negative (Binary.ofFields exponent fraction)

/-- The value of a floating-point number. -/
def Value.ofFloat (x : Float) : Value :=
  Value.ofBits x.toBits.toNat

/-! ## Comparison with decimals -/

/-- Compares `a * 10 ^ i` with `b * 2 ^ j`. -/
def compareScaled (a : Nat) (i : Int) (b : Nat) (j : Int) : Ordering :=
  compare (a * tenTo i.toNat * twoTo (-j).toNat) (b * twoTo j.toNat * tenTo (-i).toNat)

/-- Whether a decimal is among the numbers that round to the magnitude. -/
def Binary.roundsFrom (x : Binary) (d : Decimal) : Bool :=
  let low := if x.narrowBelow then 4 * x.m - 1 else 4 * x.m - 2
  let high := 4 * x.m + 2
  let closed := x.m % 2 = 0
  let belowEnd := compareScaled d.digits d.exponent low (x.q - 2)
  let aboveEnd := compareScaled d.digits d.exponent high (x.q - 2)
  (belowEnd == .gt || (closed && belowEnd == .eq)) &&
    (aboveEnd == .lt || (closed && aboveEnd == .eq))

/-- The magnitude written out in full. -/
def Binary.exact (x : Binary) : Decimal :=
  if 0 ≤ x.q then { digits := x.m * twoTo x.q.toNat, exponent := 0 }
  else { digits := x.m * Nat.pow 5 (-x.q).toNat, exponent := x.q }

end Decimal

end MixedInteger
