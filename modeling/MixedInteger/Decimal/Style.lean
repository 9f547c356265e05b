import MixedInteger.Decimal.Shortest

/-!
# Number styles

How the digits of a number are laid out.  Positional notation writes a point among or before the
digits, scientific notation puts it after the first digit and adds the exponent.  A style says
which of the two a number gets.
-/

namespace MixedInteger

namespace Decimal

/-- The exponent of the leading digit. -/
def leadingExponent (d : Decimal) : Int :=
  d.exponent + (digitsOf d.digits).length - 1

/-- Positional notation; `point` puts a point and a zero after whole numbers. -/
def positional (point : Bool) (d : Decimal) : List Char :=
  let digits := digitsOf d.digits
  if 0 ≤ d.exponent then
    digits ++ List.replicate d.exponent.toNat '0' ++ (if point then ['.', '0'] else [])
  else
    let places := (-d.exponent).toNat
    if places < digits.length then
      digits.take (digits.length - places) ++ '.' :: digits.drop (digits.length - places)
    else '0' :: '.' :: List.replicate (places - digits.length) '0' ++ digits

/-- Scientific notation, with a sign before the exponent and no point after a lone digit. -/
def scientific (d : Decimal) : List Char :=
  let exponent := d.leadingExponent
  let power := (if exponent < 0 then '-' else '+') :: digitsOf exponent.natAbs
  match digitsOf d.digits with
  | [] => []
  | [digit] => digit :: 'e' :: power
  | digit :: digits => digit :: '.' :: digits ++ 'e' :: power

/-- How numbers are written. -/
structure Style where
  /-- What is taken of two equally near shortest decimals. -/
  tie : Tie
  /-- Whether whole numbers in positional notation carry a point and a zero. -/
  point : Bool
  /-- Whether a number is in positional notation, by the exponent of its leading digit. -/
  isPositional : Int → Bool

/-- A finite magnitude in a style. -/
def Style.magnitude (style : Style) (x : Binary) : List Char :=
  if x.m = 0 then positional style.point { digits := 0, exponent := 0 }
  else
    let d := shortest style.tie x
    if style.isPositional d.leadingExponent then d.positional style.point else d.scientific

/-- Puts a minus sign in front of a negative number. -/
def signed (negative : Bool) (text : List Char) : List Char :=
  if negative then '-' :: text else text

end Decimal

end MixedInteger
