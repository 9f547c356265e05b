import MixedInteger.Arithmetic.Binary64
import MixedInteger.Decimal.Style
import MixedInteger.Json.Text

/-!
# JSON numbers

A numeral is the spelling of a number: a sign, whole digits without a superfluous zero, and
optionally a fraction and an exponent.  It is scanned first and valued afterwards, because a
number that is passed over may have any size.

The value is computed in floating point.  The digits make up a significand of at most 64 bits:
whole digits beyond it count as tens, and digits of the fraction beyond it as nothing.  The
significand is then multiplied or divided by a power of ten.  A value beyond the largest finite
number is rejected.

Numbers are written with the fewest digits, positionally between 1e-5 and 1e16.
-/

namespace MixedInteger

namespace Json

/-! ## Numerals -/

/-- The spelling of a number. -/
structure Numeral where
  negative : Bool
  whole : List Char
  fraction : List Char
  exponent : Int
  deriving DecidableEq, Repr

/-- Reads one digit or more; `cut` is the problem of a text that ends before the first. -/
def digits (cut : Problem) : Reader (List Char) := fun text ↦
  match text.takeWhile Char.isDigit, text with
  | [], [] => .error cut
  | [], _ => .error .malformed
  | found, _ => .ok (found, text.dropWhile Char.isDigit)

/-- Reads the digits before the point: a zero alone, or digits of which the first is not zero. -/
def wholeDigits (cut : Problem) : Reader (List Char)
  | '0' :: c :: rest => if c.isDigit then .error .malformed else .ok (['0'], c :: rest)
  | text => digits cut text

/-- Reads a fraction, which may be missing. -/
def fraction (cut : Problem) : Reader (List Char)
  | '.' :: rest => digits cut rest
  | text => .ok ([], text)

/-- Reads an exponent, which may be missing. -/
def exponent (cut : Problem) : Reader Int
  | [] => .ok (0, [])
  | c :: rest =>
    if c = 'e' ∨ c = 'E' then
      match rest with
      | '+' :: rest => do
        let (found, rest) ← digits cut rest
        return (Decimal.ofDigits found, rest)
      | '-' :: rest => do
        let (found, rest) ← digits cut rest
        return (-Decimal.ofDigits found, rest)
      | rest => do
        let (found, rest) ← digits cut rest
        return (Decimal.ofDigits found, rest)
    else .ok (0, c :: rest)

/-- Whether a numeral may begin with a character. -/
def startsNumeral (c : Char) : Bool :=
  c == '-' || c.isDigit

/-- Reads a numeral; `cut` is the problem of a text that ends inside it. -/
def numeral (cut : Problem) : Reader Numeral := fun text ↦ do
  let (negative, text) :=
    match text with
    | '-' :: rest => (true, rest)
    | text => (false, text)
  let (whole, text) ← wholeDigits cut text
  let (fraction, text) ← fraction cut text
  let (exponent, text) ← exponent cut text
  let numeral : Numeral :=
    { negative := negative, whole := whole, fraction := fraction, exponent := exponent }
  return (numeral, text)

/-! ## Values -/

/-- Significands are below this number. -/
def significandLimit : Nat :=
  Nat.pow 2 64

/-- Appends as many of the given digits to a significand as it can hold, and returns it together
with the number of digits that it cannot. -/
def appendDigits (significand : Nat) : List Char → Nat × Nat
  | [] => (significand, 0)
  | c :: rest =>
    let longer := significand * 10 + Decimal.digitValue c
    if longer < significandLimit then appendDigits longer rest
    else (significand, (c :: rest).length)

/-- The significand of a numeral and the power of ten that goes with it. -/
def Numeral.significand (numeral : Numeral) : Nat × Int :=
  let (whole, beyond) := appendDigits 0 numeral.whole
  let (all, lost) := appendDigits whole numeral.fraction
  (all, beyond - (numeral.fraction.length - lost : Nat) + numeral.exponent)

/-- A power of ten, correctly rounded. -/
def powerOfTen (k : Nat) : Float :=
  Float.ofScientific 1 false k

/-- Multiplies or divides by a power of ten; what is too large becomes infinite. -/
def scaled (f : Float) (e : Int) : Float :=
  if e.natAbs ≤ 308 then
    if 0 ≤ e then f * powerOfTen e.natAbs else f / powerOfTen e.natAbs
  else if f == 0 then f
  else if 0 ≤ e then Arithmetic.infinity
  else scaled (f / powerOfTen 308) (e + 308)
termination_by e.natAbs

/-- The value of a numeral, if it is finite. -/
def Numeral.value? (numeral : Numeral) : Option Float :=
  let (significand, e) := numeral.significand
  let f := scaled (Float.ofNat significand) e
  let value := if numeral.negative then -f else f
  if Arithmetic.isFinite value then some value else none

/-- Reads a number. -/
def number : Reader Float := fun text ↦ do
  let (numeral, rest) ← numeral .truncated text
  match numeral.value? with
  | some value => return (value, rest)
  | none => throw .malformed

/-! ## Written numbers -/

/-- How numbers are written. -/
def style : Decimal.Style where
  tie := .toEven
  point := true
  isPositional e := decide (-5 ≤ e ∧ e < 16)

/-- A number in JSON, where only finite numbers can be written. -/
def writeNumber (x : Float) : List Char :=
  match Decimal.Value.ofFloat x with
  | .finite negative magnitude => Decimal.signed negative (style.magnitude magnitude)
  | _ => ['n', 'u', 'l', 'l']

end Json

end MixedInteger
