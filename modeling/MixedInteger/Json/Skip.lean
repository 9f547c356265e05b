import MixedInteger.Json.Number

/-!
# Skipping JSON values

Passing over a value checks that it is JSON and nothing more: numbers may have any size, strings
may contain units without a partner, and values may be nested to any depth.  The brackets that are
still open are kept in a list, so that the depth of a value costs no depth of recursion.
-/

namespace MixedInteger

namespace Json

/-- A bracket that is open. -/
inductive Bracket where
  | array
  | object
  deriving DecidableEq, Repr

/-- The character that closes a bracket. -/
def Bracket.closing : Bracket → Char
  | array => ']'
  | object => '}'

/-- What the text must continue with. -/
inductive Expected where
  /-- A value. -/
  | value
  /-- The key of a member. -/
  | key
  /-- The first entry inside the innermost open bracket, or the character that closes it. -/
  | entry
  /-- The end of the value just read: what follows belongs to the innermost open bracket. -/
  | nothing
  deriving DecidableEq, Repr

/-- What an entry inside a bracket begins with. -/
def Bracket.entry : Bracket → Expected
  | array => .value
  | object => .key

/-- Passes over a value that is no array or object, given its first character. -/
def skipScalar (c : Char) (rest : List Char) : Except Problem (List Char) :=
  if c = '"' then skipString rest
  else if c = 'n' then (word ['u', 'l', 'l'] rest).map Prod.snd
  else if c = 't' then (word ['r', 'u', 'e'] rest).map Prod.snd
  else if c = 'f' then (word ['a', 'l', 's', 'e'] rest).map Prod.snd
  else if startsNumeral c then (numeral .malformed (c :: rest)).map Prod.snd
  else .error .malformed

/-- Passes over what is expected and all that the open brackets still need, in at most `fuel`
steps. -/
def skipWithin : Nat → List Bracket → Expected → List Char → Except Problem (List Char)
  | 0, _, _, _ => .error .truncated
  | _ + 1, [], .nothing, text => .ok text
  | _ + 1, [], .entry, text => .ok text
  | fuel + 1, bracket :: outer, .nothing, text =>
    match dropSpace text with
    | [] => .error .truncated
    | c :: rest =>
      if c = ',' then skipWithin fuel (bracket :: outer) bracket.entry rest
      else if c = bracket.closing then skipWithin fuel outer .nothing rest
      else .error .malformed
  | fuel + 1, bracket :: outer, .entry, text =>
    match dropSpace text with
    | [] => .error .truncated
    | c :: rest =>
      if c = bracket.closing then skipWithin fuel outer .nothing rest
      else skipWithin fuel (bracket :: outer) bracket.entry (c :: rest)
  | fuel + 1, brackets, .key, text =>
    match dropSpace text with
    | [] => .error .truncated
    | '"' :: rest => do
      let rest ← skipString rest
      match dropSpace rest with
      | [] => throw .truncated
      | ':' :: rest => skipWithin fuel brackets .value rest
      | _ => throw .malformed
    | _ => .error .malformed
  | fuel + 1, brackets, .value, text =>
    match dropSpace text with
    | [] => .error .truncated
    | '[' :: rest => skipWithin fuel (.array :: brackets) .entry rest
    | '{' :: rest => skipWithin fuel (.object :: brackets) .entry rest
    | c :: rest => do
      let rest ← skipScalar c rest
      skipWithin fuel brackets .nothing rest

/-- Passes over one value of a text whose length is at most `limit`. -/
def skipValue (limit : Nat) (text : List Char) : Except Problem (List Char) :=
  skipWithin (2 * limit + 2) [] .value text

end Json

end MixedInteger
