import MixedInteger.Json.Number

/-!
# JSON values of a known type

Readers for numbers, flags, values that may be `null`, and arrays of such.  A value of another
type is recognised before it is refused: an array or an object at its bracket, any other value
when all of it has been read.
-/

namespace MixedInteger

namespace Json

/-- Refuses a value that is JSON but not of the expected type. -/
def refuse {β : Type} (text : List Char) : Except Problem β :=
  match text with
  | [] => .error .truncated
  | '[' :: _ => .error .mismatched
  | '{' :: _ => .error .mismatched
  | '"' :: rest => string rest >>= fun _ ↦ .error .mismatched
  | 'n' :: rest => word ['u', 'l', 'l'] rest >>= fun _ ↦ .error .mismatched
  | 't' :: rest => word ['r', 'u', 'e'] rest >>= fun _ ↦ .error .mismatched
  | 'f' :: rest => word ['a', 'l', 's', 'e'] rest >>= fun _ ↦ .error .mismatched
  | c :: rest =>
    if startsNumeral c then number (c :: rest) >>= fun _ ↦ .error .mismatched
    else .error .malformed

/-- Reads a number. -/
def readNumber : Reader Float := fun text ↦
  match dropSpace text with
  | c :: rest => if startsNumeral c then number (c :: rest) else refuse (c :: rest)
  | [] => .error .truncated

/-- Reads `true` or `false`. -/
def readFlag : Reader Bool := fun text ↦
  match dropSpace text with
  | 't' :: rest => do
    let (_, rest) ← word ['r', 'u', 'e'] rest
    return (true, rest)
  | 'f' :: rest => do
    let (_, rest) ← word ['a', 'l', 's', 'e'] rest
    return (false, rest)
  | text => refuse text

/-- Reads `null`, or a value with the given reader. -/
def readNullable {β : Type} (read : Reader β) : Reader (Option β) := fun text ↦
  match dropSpace text with
  | 'n' :: rest => do
    let (_, rest) ← word ['u', 'l', 'l'] rest
    return (none, rest)
  | text => do
    let (value, rest) ← read text
    return (some value, rest)

/-- Reads the entries of an array and its closing bracket, for at most `fuel` entries, of which
there is one at least. -/
def readEntries {β : Type} (read : Reader β) : Nat → Reader (List β)
  | 0, _ => .error .truncated
  | fuel + 1, text => do
    let (entry, rest) ← read text
    match dropSpace rest with
    | [] => throw .truncated
    | ']' :: rest => return ([entry], rest)
    | ',' :: rest =>
      match dropSpace rest with
      | [] => throw .truncated
      | ']' :: _ => throw .malformed
      | rest =>
        let (entries, rest) ← readEntries read fuel rest
        return (entry :: entries, rest)
    | _ => throw .malformed

/-- Reads an array of values from a text whose length is at most `limit`. -/
def readArray {β : Type} (limit : Nat) (read : Reader β) : Reader (List β) := fun text ↦
  match dropSpace text with
  | '[' :: rest =>
    match dropSpace rest with
    | [] => .error .truncated
    | ']' :: rest => .ok ([], rest)
    | rest => readEntries read limit rest
  | text => refuse text

end Json

end MixedInteger
