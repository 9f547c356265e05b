import MixedInteger.Arithmetic

/-!
# Binary floating-point arithmetic

The 64-bit binary format with its own operations: every result is rounded to the nearest value of
the format, the strict order and the order are false on an undefined operand, and the magnitude
clears the sign bit.
-/

namespace MixedInteger

namespace Binary64

/-- The positive infinity of the format. -/
def infinity : Float :=
  Float.ofBits 0x7ff0000000000000

/-- The result of an invalid operation. -/
def undefined : Float :=
  Float.ofBits 0x7ff8000000000000

end Binary64

instance : Arithmetic Float where
  zero := 0.0
  one := 1.0
  infinity := Binary64.infinity
  magnitude := Float.abs
  floor := Float.floor
  ceil := Float.ceil
  decidableLT := inferInstance
  decidableLE := inferInstance

end MixedInteger
