import MixedInteger.Decimal.Style

/-!
# Fixed places

A number with a fixed number of decimal places is its exact value rounded to that many places,
where a half goes to the even neighbour.  The sign is that of the value, also when it rounds to
zero.
-/

namespace MixedInteger

namespace Decimal

/-- The quotient rounded to the nearest number, a half to the even one. -/
def roundQuotient (dividend divisor : Nat) : Nat :=
  let quotient := dividend / divisor
  match compare (2 * (dividend % divisor)) divisor with
  | .lt => quotient
  | .gt => quotient + 1
  | .eq => if quotient % 2 = 0 then quotient else quotient + 1

/-- How many units of the last of `places` decimal places a magnitude amounts to. -/
def units (places : Nat) (x : Binary) : Nat :=
  roundQuotient (x.m * twoTo x.q.toNat * tenTo places) (twoTo (-x.q).toNat)

/-- A magnitude with a fixed number of places. -/
def fixedMagnitude (places : Nat) (x : Binary) : List Char :=
  let digits := digitsOf (units places x)
  let padded := List.replicate (places + 1 - digits.length) '0' ++ digits
  let whole := padded.length - places
  padded.take whole ++ (if places = 0 then [] else '.' :: padded.drop whole)

/-- A value with a fixed number of places. -/
def fixed (places : Nat) : Value → List Char
  | .undefined => ['N', 'a', 'N']
  | .infinite negative => signed negative ['i', 'n', 'f']
  | .finite negative x => signed negative (fixedMagnitude places x)

end Decimal

end MixedInteger
