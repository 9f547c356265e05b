import MixedInteger.Json.Number
import MixedInteger.ModelFile.Reader

/-!
# Writing model files

Model files are written as objects without white space, the keys in their fixed order and the
optional ones only where there is a value.
-/

namespace MixedInteger

namespace ModelFile

open Json

/-- Joins texts with commas. -/
def commaSeparated : List (List Char) → List Char
  | [] => []
  | [text] => text
  | text :: texts => text ++ ',' :: commaSeparated texts

/-- An array of entries that are written already. -/
def array (entries : List (List Char)) : List Char :=
  '[' :: commaSeparated entries ++ [']']

/-- An array of values. -/
def arrayOf {β : Type} (write : β → List Char) (values : List β) : List Char :=
  array (values.map write)

/-- A flag. -/
def writeFlag : Bool → List Char
  | true => ['t', 'r', 'u', 'e']
  | false => ['f', 'a', 'l', 's', 'e']

/-- A value that may be missing. -/
def writeNullable {β : Type} (write : β → List Char) : Option β → List Char
  | some value => write value
  | none => ['n', 'u', 'l', 'l']

/-- A member of an object. -/
def member (field : Field) (value : List Char) : List Char :=
  '"' :: field.key ++ '"' :: ':' :: value

/-- A model file as a list of characters. -/
def written (file : ModelFile) : List Char :=
  let bounds := arrayOf (writeNullable writeNumber)
  let members :=
    [member .A (arrayOf (arrayOf writeNumber) file.A),
      member .b (arrayOf writeNumber file.b),
      member .c (arrayOf writeNumber file.c)] ++
      (file.lower.map fun lower ↦ member .lower (bounds lower)).toList ++
      (file.upper.map fun upper ↦ member .upper (bounds upper)).toList ++
      (file.integer.map fun integer ↦ member .integer (arrayOf writeFlag integer)).toList
  '{' :: commaSeparated members ++ ['}']

/-- A model file as a text. -/
def render (file : ModelFile) : String :=
  String.ofList file.written

end ModelFile

end MixedInteger
