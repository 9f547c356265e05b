import MixedInteger.Decimal.Style
import MixedInteger.Solver

/-!
# Numbers in messages

Messages write a number with the fewest digits, never with an exponent, and whole numbers without
a point.
-/

namespace MixedInteger

namespace Message

/-- How messages write numbers. -/
def style : Decimal.Style where
  tie := .up
  point := false
  isPositional _ := true

/-- A number in a message. -/
def number (x : Float) : String :=
  match Decimal.Value.ofFloat x with
  | .undefined => "NaN"
  | .infinite negative => if negative then "-inf" else "inf"
  | .finite negative magnitude =>
    String.ofList (Decimal.signed negative (style.magnitude magnitude))

end Message

/-- The message of a failure. -/
def Failure.text (failure : Failure Float) : String :=
  failure.message Message.number

end MixedInteger
