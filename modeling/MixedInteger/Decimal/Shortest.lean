import MixedInteger.Decimal.Binary

/-!
# Shortest decimals

The shortest decimal of a binary value is the one with the fewest digits among those that round
to it; of two with equally many digits the nearer one is taken.  The digits are found on the full
expansion of the value: with `count` digits, the only candidates are the expansion cut after that
many digits and the next number of that length.
-/

namespace MixedInteger

namespace Decimal

/-- Which of two equally near candidates is taken. -/
inductive Tie where
  | toEven
  | up
  deriving DecidableEq, Repr

/-- The candidates with a given unit: the number of units in the expansion and the next number,
as far as they round to the value, and the nearer one of both. -/
def candidate? (tie : Tie) (x : Binary) (exact : Decimal) (cut : Nat) : Option Decimal :=
  let unit := tenTo cut
  let count := exact.digits / unit
  let rest := exact.digits % unit
  let low : Decimal := { digits := count, exponent := exact.exponent + cut }
  let high : Decimal := { digits := count + 1, exponent := exact.exponent + cut }
  match x.roundsFrom low, x.roundsFrom high with
  | true, true =>
    some <|
      match compare (2 * rest) unit, tie with
      | .lt, _ => low
      | .gt, _ => high
      | .eq, .up => high
      | .eq, .toEven => if count % 2 = 0 then low else high
  | true, false => some low
  | false, true => some high
  | false, false => none

/-- The decimal without the zeros at its end. -/
def withoutTrailingZeros (d : Decimal) : Decimal :=
  let zeros := ((digitsOf d.digits).reverse.takeWhile (· == '0')).length
  { digits := d.digits / tenTo zeros, exponent := d.exponent + zeros }

/-- The shortest decimal that rounds to a magnitude.  Seventeen digits are enough for every
magnitude; were they not, the expansion itself would be taken. -/
def shortest (tie : Tie) (x : Binary) : Decimal :=
  let exact := x.exact
  let length := (digitsOf exact.digits).length
  let found := (List.range 17).findSome? fun k ↦ candidate? tie x exact (length - (k + 1))
  withoutTrailingZeros (found.getD exact)

end Decimal

end MixedInteger
