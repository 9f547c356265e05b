import MixedInteger.Arithmetic.Binary64
import MixedInteger.Decimal.Binary

/-!
# Number literals

A number as a person types it: an optional sign, digits with an optional point among, before or
behind them, and an optional exponent; or the words for infinity and for the undefined value, in
any case.  The value is the floating-point number nearest to what is written.
-/

namespace MixedInteger

namespace Decimal

/-- Splits off the sign of a literal. -/
def splitSign : List Char → Bool × List Char
  | '-' :: rest => (true, rest)
  | '+' :: rest => (false, rest)
  | text => (false, text)

/-- The exponent at the end of a literal, which may be missing. -/
def exponent? : List Char → Option Int
  | [] => some 0
  | c :: rest =>
    if c = 'e' ∨ c = 'E' then
      let (negative, digits) := splitSign rest
      if digits.isEmpty || !digits.all Char.isDigit then none
      else some (if negative then -ofDigits digits else ofDigits digits)
    else none

/-- An unsigned literal in digits. -/
def ofUnsigned? (text : List Char) : Option Decimal :=
  let whole := text.takeWhile Char.isDigit
  let rest := text.dropWhile Char.isDigit
  let (fraction, rest) :=
    match rest with
    | '.' :: rest => (rest.takeWhile Char.isDigit, rest.dropWhile Char.isDigit)
    | rest => ([], rest)
  if whole.isEmpty && fraction.isEmpty then none
  else
    (exponent? rest).map fun e ↦
      { digits := ofDigits (whole ++ fraction), exponent := e - fraction.length }

/-- The floating-point number nearest to a decimal. -/
def toFloat (d : Decimal) : Float :=
  Float.ofScientific d.digits (decide (d.exponent < 0)) d.exponent.natAbs

/-- The value of a literal. -/
def parseFloat? (text : List Char) : Option Float :=
  let (negative, rest) := splitSign text
  let value :=
    if rest.map Char.toLower = ['n', 'a', 'n'] then some Binary64.undefined
    else if rest.map Char.toLower = ['i', 'n', 'f'] ∨
        rest.map Char.toLower = ['i', 'n', 'f', 'i', 'n', 'i', 't', 'y'] then
      some Binary64.infinity
    else (ofUnsigned? rest).map toFloat
  value.map fun x ↦ if negative then -x else x

end Decimal

end MixedInteger
