/-!
# Decimal digits

A natural number and the list of its decimal digits, the leading one first.
-/

namespace MixedInteger

namespace Decimal

/-- A power of ten. -/
def tenTo (k : Nat) : Nat :=
  Nat.pow 10 k

/-- The digits of a number, without superfluous zeros in front. -/
def digitsOf (a : Nat) : List Char :=
  Nat.toDigits 10 a

/-- The number that a digit stands for. -/
def digitValue (c : Char) : Nat :=
  c.toNat - '0'.toNat

/-- The number that a list of digits spells. -/
def ofDigits (digits : List Char) : Nat :=
  digits.foldl (fun a c ↦ a * 10 + digitValue c) 0

end Decimal

end MixedInteger
