import MixedInteger.Json.Skip
import MixedInteger.Json.Typed
import MixedInteger.ModelFile

/-!
# Reading model files

A model file is a JSON object with the keys `A`, `b`, `c` and optionally `xLB`, `xUB`, `xINT`, in
any order, or an array of the same six values in this order, of which the last three may be left
out.  Other keys are skipped with their values.  An optional value may also be `null`, which says
the same as leaving it out.

A key that occurs twice is refused at its second occurrence, and a missing one where the object or
the array ends.

Readers of values of any length take a limit: a number that is at least the length of the text.
-/

namespace MixedInteger

namespace ModelFile

open Json

/-! ## Fields -/

/-- The fields of a model file. -/
inductive Field where
  | A
  | b
  | c
  | lower
  | upper
  | integer
  deriving DecidableEq, Repr

/-- The key of a field. -/
def Field.key : Field → List Char
  | A => ['A']
  | b => ['b']
  | c => ['c']
  | lower => ['x', 'L', 'B']
  | upper => ['x', 'U', 'B']
  | integer => ['x', 'I', 'N', 'T']

/-- The fields in the order in which they are written. -/
def Field.all : List Field :=
  [.A, .b, .c, .lower, .upper, .integer]

/-- The field with a key. -/
def Field.ofKey? (key : List Char) : Option Field :=
  Field.all.find? fun field ↦ field.key == key

/-- The fields read so far. -/
structure Draft where
  A : Option (List (List Float)) := none
  b : Option (List Float) := none
  c : Option (List Float) := none
  lower : Option (Option (List (Option Float))) := none
  upper : Option (Option (List (Option Float))) := none
  integer : Option (Option (List Bool)) := none

namespace Draft

/-- Whether a field has been read. -/
def has (draft : Draft) : Field → Bool
  | .A => draft.A.isSome
  | .b => draft.b.isSome
  | .c => draft.c.isSome
  | .lower => draft.lower.isSome
  | .upper => draft.upper.isSome
  | .integer => draft.integer.isSome

/-- Reads the value of a field into a draft. -/
def read (limit : Nat) (draft : Draft) : Field → Reader Draft
  | .A, text => do
    let (value, rest) ← readArray limit (readArray limit readNumber) text
    return ({ draft with A := some value }, rest)
  | .b, text => do
    let (value, rest) ← readArray limit readNumber text
    return ({ draft with b := some value }, rest)
  | .c, text => do
    let (value, rest) ← readArray limit readNumber text
    return ({ draft with c := some value }, rest)
  | .lower, text => do
    let (value, rest) ← readNullable (readArray limit (readNullable readNumber)) text
    return ({ draft with lower := some value }, rest)
  | .upper, text => do
    let (value, rest) ← readNullable (readArray limit (readNullable readNumber)) text
    return ({ draft with upper := some value }, rest)
  | .integer, text => do
    let (value, rest) ← readNullable (readArray limit readFlag) text
    return ({ draft with integer := some value }, rest)

/-- The file of a draft that has all it must have. -/
def finish (draft : Draft) : Except Problem ModelFile :=
  match draft.A, draft.b, draft.c with
  | some A, some b, some c =>
    .ok
      { A := A
        b := b
        c := c
        lower := draft.lower.join
        upper := draft.upper.join
        integer := draft.integer.join }
  | _, _, _ => .error .mismatched

end Draft

/-! ## Objects -/

/-- Reads the members of an object after the quote of a key, and its closing bracket, for at most
`fuel` members. -/
def readMembers (limit : Nat) : Nat → Draft → Reader ModelFile
  | 0, _, _ => .error .truncated
  | fuel + 1, draft, text => do
    let (key, rest) ← string text
    let field := Field.ofKey? key
    if field.any draft.has then throw .mismatched
    match dropSpace rest with
    | [] => throw .truncated
    | ':' :: rest =>
      let (draft, rest) ←
        match field with
        | some field => draft.read limit field rest
        | none => do
          let rest ← skipValue limit rest
          pure (draft, rest)
      match dropSpace rest with
      | [] => throw .truncated
      | '}' :: rest =>
        let file ← draft.finish
        return (file, rest)
      | ',' :: rest =>
        match dropSpace rest with
        | [] => throw .truncated
        | '"' :: rest => readMembers limit fuel draft rest
        | _ => throw .malformed
      | _ => throw .malformed
    | _ => throw .malformed

/-- Reads an object after its opening bracket. -/
def readObject (limit : Nat) : Reader ModelFile := fun text ↦
  match dropSpace text with
  | [] => .error .truncated
  | '}' :: _ => .error .mismatched
  | '"' :: rest => readMembers limit limit {} rest
  | _ => .error .malformed

/-! ## Arrays -/

/-- Reads the remaining fields of an array, each after a comma, and its closing bracket. -/
def readPositions (limit : Nat) : List Field → Draft → Reader ModelFile
  | [], draft, text =>
    match dropSpace text with
    | [] => .error .truncated
    | ']' :: rest => do
      let file ← draft.finish
      return (file, rest)
    | _ => .error .malformed
  | field :: fields, draft, text =>
    match dropSpace text with
    | [] => .error .truncated
    | ']' :: rest => do
      let file ← draft.finish
      return (file, rest)
    | ',' :: rest =>
      match dropSpace rest with
      | [] => .error .truncated
      | ']' :: _ => .error .malformed
      | rest => do
        let (draft, rest) ← draft.read limit field rest
        readPositions limit fields draft rest
    | _ => .error .malformed

/-- Reads an array after its opening bracket. -/
def readPositional (limit : Nat) : Reader ModelFile := fun text ↦
  match dropSpace text with
  | [] => .error .truncated
  | ']' :: _ => .error .mismatched
  | text => do
    let (draft, rest) ← Draft.read limit {} .A text
    readPositions limit [.b, .c, .lower, .upper, .integer] draft rest

/-! ## Files -/

/-- Reads the one value of a text. -/
def readValue (limit : Nat) : Reader ModelFile := fun text ↦
  match dropSpace text with
  | '{' :: rest => readObject limit rest
  | '[' :: rest => readPositional limit rest
  | text => refuse text

/-- Reads a model file. -/
def parse (text : String) : Except Problem ModelFile := do
  let text := text.toList
  let (file, rest) ← readValue text.length text
  match dropSpace rest with
  | [] => return file
  | _ => throw .malformed

end ModelFile

end MixedInteger
