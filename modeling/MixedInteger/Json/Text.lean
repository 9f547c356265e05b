/-!
# JSON texts

The smallest parts of JSON: white space, the three words, and strings.  A part is read off the
front of a text, a list of characters, and what follows it is returned with it.

The first thing wrong with a text decides how it is rejected, reading from left to right: the text
ends too early, it is not JSON at this place, or it is JSON of the wrong kind.
-/

namespace MixedInteger

namespace Json

/-- Why a text is rejected. -/
inductive Problem where
  /-- The text ends too early. -/
  | truncated
  /-- The text is not JSON at this place. -/
  | malformed
  /-- The text is JSON of the wrong kind at this place. -/
  | mismatched
  deriving DecidableEq, Repr

/-- A reader takes what it reads off the front of a text and returns the rest. -/
abbrev Reader (β : Type) := List Char → Except Problem (β × List Char)

/-! ## White space and words -/

/-- The four characters that may stand between tokens. -/
def isSpace (c : Char) : Bool :=
  c == ' ' || c == '\t' || c == '\n' || c == '\r'

/-- The text without the white space at its front. -/
def dropSpace (text : List Char) : List Char :=
  text.dropWhile isSpace

/-- Reads the given characters. -/
def word : List Char → Reader Unit
  | [], text => .ok ((), text)
  | _ :: _, [] => .error .truncated
  | c :: rest, d :: text => if c = d then word rest text else .error .malformed

/-! ## Strings -/

/-- The value of a hexadecimal digit. -/
def hexDigit? (c : Char) : Option Nat :=
  if '0' ≤ c ∧ c ≤ '9' then some (c.toNat - '0'.toNat)
  else if 'a' ≤ c ∧ c ≤ 'f' then some (c.toNat - 'a'.toNat + 10)
  else if 'A' ≤ c ∧ c ≤ 'F' then some (c.toNat - 'A'.toNat + 10)
  else none

/-- The value of four hexadecimal digits. -/
def hexUnit? (a b c d : Char) : Option Nat := do
  let a ← hexDigit? a
  let b ← hexDigit? b
  let c ← hexDigit? c
  let d ← hexDigit? d
  return ((a * 16 + b) * 16 + c) * 16 + d

/-- The length of a text in bytes. -/
def byteLength : List Char → Nat
  | [] => 0
  | c :: rest => c.utf8Size + byteLength rest

/-- Reads the four hexadecimal digits of an escape.  The digits are looked at only when at least
four bytes are left. -/
def hexUnit : Reader Nat
  | a :: b :: c :: d :: rest =>
    match hexUnit? a b c d with
    | some unit => .ok (unit, rest)
    | none => .error .malformed
  | text => if byteLength text < 4 then .error .truncated else .error .malformed

/-- The character that a one-letter escape stands for. -/
def escaped? : Char → Option Char
  | '"' => some '"'
  | '\\' => some '\\'
  | '/' => some '/'
  | 'b' => some '\x08'
  | 'f' => some '\x0c'
  | 'n' => some '\n'
  | 'r' => some '\r'
  | 't' => some '\t'
  | _ => none

/-- Units from here on open a pair that stands for one character beyond the first plane. -/
def isLeading (unit : Nat) : Bool :=
  decide (0xd800 ≤ unit ∧ unit ≤ 0xdbff)

/-- Units from here on close such a pair. -/
def isTrailing (unit : Nat) : Bool :=
  decide (0xdc00 ≤ unit ∧ unit ≤ 0xdfff)

/-- Reads the character of an escape after `\u`; paired units make up one character, and a unit
without its partner is no character. -/
def unicodeEscape (text : List Char) : Except Problem (Char × List Char) := do
  let (unit, rest) ← hexUnit text
  if isTrailing unit then throw .malformed
  if isLeading unit then
    match rest with
    | [] => throw .truncated
    | '\\' :: [] => throw .truncated
    | '\\' :: 'u' :: rest =>
      let (second, rest) ← hexUnit rest
      if isTrailing second then
        return (Char.ofNat (0x10000 + (unit - 0xd800) * 0x400 + (second - 0xdc00)), rest)
      else throw .malformed
    | _ => throw .malformed
  else return (Char.ofNat unit, rest)

theorem length_hexUnit {text rest : List Char} {unit : Nat}
    (h : hexUnit text = .ok (unit, rest)) : rest.length < text.length := by
  unfold hexUnit at h
  split at h
  · split at h
    · simp only [Except.ok.injEq, Prod.mk.injEq] at h
      simp only [← h.2, List.length_cons]
      omega
    · simp at h
  · split at h <;> simp at h

theorem length_unicodeEscape {text rest : List Char} {c : Char}
    (h : unicodeEscape text = .ok (c, rest)) : rest.length < text.length := by
  unfold unicodeEscape at h
  cases hunit : hexUnit text with
  | error problem => simp [hunit, bind, Except.bind] at h
  | ok first =>
    obtain ⟨unit, middle⟩ := first
    have hmiddle := length_hexUnit hunit
    simp only [hunit, bind, Except.bind] at h
    split at h
    · simp [throw, throwThe, MonadExceptOf.throw] at h
    · split at h
      · split at h
        · simp [throw, throwThe, MonadExceptOf.throw] at h
        · simp [throw, throwThe, MonadExceptOf.throw] at h
        · next last =>
          cases hsecond : hexUnit last with
          | error problem => simp [hsecond] at h
          | ok second =>
            obtain ⟨second, after⟩ := second
            have hafter := length_hexUnit hsecond
            simp only [hsecond] at h
            split at h
            · simp only [pure, Except.pure, Except.ok.injEq, Prod.mk.injEq] at h
              simp only [List.length_cons] at hmiddle
              simp only [← h.2]
              omega
            · simp [throw, throwThe, MonadExceptOf.throw] at h
        · simp [throw, throwThe, MonadExceptOf.throw] at h
      · simp only [pure, Except.pure, Except.ok.injEq, Prod.mk.injEq] at h
        simpa only [← h.2] using hmiddle

/-- Reads the character of an escape after its backslash. -/
def escape : Reader Char
  | [] => .error .truncated
  | c :: rest =>
    if c = 'u' then unicodeEscape rest
    else
      match escaped? c with
      | some c => .ok (c, rest)
      | none => .error .malformed

theorem length_escape {text rest : List Char} {c : Char} (h : escape text = .ok (c, rest)) :
    rest.length < text.length := by
  unfold escape at h
  split at h
  · simp at h
  · split at h
    · have := length_unicodeEscape h
      simp only [List.length_cons]
      omega
    · split at h
      · simp only [Except.ok.injEq, Prod.mk.injEq] at h
        simp [← h.2]
      · simp at h

/-- Puts a character in front of what a reader has read. -/
def consRead (c : Char) : List Char × List Char → List Char × List Char
  | (text, rest) => (c :: text, rest)

/-- Reads a string after its opening quote. -/
def string (text : List Char) : Except Problem (List Char × List Char) :=
  match text with
  | [] => .error .truncated
  | c :: rest =>
    if c = '"' then .ok ([], rest)
    else if c = '\\' then
      match _shorter : escape rest with
      | .error problem => .error problem
      | .ok (c, after) => (string after).map (consRead c)
    else if c.toNat < 0x20 then .error .malformed
    else (string rest).map (consRead c)
termination_by text.length
decreasing_by
  · have := length_escape _shorter
    simp only [List.length_cons]
    omega
  · simp

/-- Passes over a string after its opening quote.  The units of escapes need not be paired
here. -/
def skipString : List Char → Except Problem (List Char)
  | [] => .error .truncated
  | c :: rest =>
    if c = '"' then .ok rest
    else if c = '\\' then
      match rest with
      | [] => .error .truncated
      | c :: rest =>
        if c = 'u' then
          match rest with
          | a :: b :: c :: d :: rest =>
            if (hexUnit? a b c d).isSome then skipString rest else .error .malformed
          | rest => (hexUnit rest).map Prod.snd
        else if (escaped? c).isSome then skipString rest
        else .error .malformed
    else if c.toNat < 0x20 then .error .malformed
    else skipString rest

end Json

end MixedInteger
