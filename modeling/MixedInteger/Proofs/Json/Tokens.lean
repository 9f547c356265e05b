import MixedInteger.Proofs.Json.Values

/-!
# Spellings of numbers and strings

Which texts are numerals and strings is said here without regard to how they are read: a numeral is
put together from digits, a fraction and an exponent, and a string from characters that stand for
themselves and from escapes.  Readers take these texts as what they spell.

There are two kinds of strings.  The units of escapes in a string that is passed over need no
partner, while a key is a sequence of characters, so units beyond the first plane come in pairs.
-/

namespace MixedInteger

namespace Json

/-! ## Digits -/

/-- A text of digits, of which there is one at least. -/
structure Digits (text : List Char) : Prop where
  ne_nil : text ≠ []
  isDigit : ∀ c ∈ text, c.isDigit = true

/-- A text that does not go on with a digit. -/
def NoDigit (rest : List Char) : Prop :=
  ∀ c ∈ rest.head?, c.isDigit = false

variable {text rest : List Char}

theorem noDigit_of_endsNumeral (h : EndsNumeral rest) : NoDigit rest := by
  cases rest with
  | nil => nofun
  | cons c rest =>
    rintro _ ⟨⟩
    exact h.1

theorem noDigit_cons {c : Char} (h : c.isDigit = false) (rest : List Char) :
    NoDigit (c :: rest) := by
  rintro _ ⟨⟩
  exact h

theorem digits_of_all {c : Char} (h : (c :: text).all Char.isDigit = true) :
    Digits (c :: text) :=
  ⟨List.cons_ne_nil c text, List.all_eq_true.1 h⟩

theorem NoDigit.takeWhile (h : NoDigit rest) :
    rest.takeWhile Char.isDigit = [] ∧ rest.dropWhile Char.isDigit = rest := by
  cases rest with
  | nil => exact ⟨rfl, rfl⟩
  | cons c rest =>
    have hc := Bool.eq_false_iff.1 (h c rfl)
    exact ⟨List.takeWhile_cons_of_neg hc, List.dropWhile_cons_of_neg hc⟩

/-- Digits are read as far as they go. -/
theorem digits_append (h : Digits text) (hrest : NoDigit rest) (cut : Problem) :
    digits cut (text ++ rest) = .ok (text, rest) := by
  obtain ⟨htake, hdrop⟩ := hrest.takeWhile
  refine digits_eq_ok_iff.2 ⟨h.ne_nil, ?_, ?_⟩
  · rw [List.takeWhile_append_of_pos h.isDigit, htake, List.append_nil]
  · rw [List.dropWhile_append_of_pos h.isDigit, hdrop]

/-- Digits do not begin with a character of another kind. -/
theorem Digits.ne_cons (h : Digits text) {c : Char} (hc : c.isDigit = false)
    (rest more : List Char) : text ++ rest ≠ c :: more := by
  obtain ⟨d, after, rfl⟩ := List.exists_cons_of_ne_nil h.ne_nil
  intro heq
  have hd := h.isDigit d List.mem_cons_self
  rw [(List.cons.inj heq).1, hc] at hd
  cases hd

/-! ## Numerals -/

/-- The digits before the point: a zero alone, or digits of which the first is not zero. -/
inductive WholeText : List Char → Prop where
  | zero : WholeText ['0']
  | digits {c : Char} {text : List Char} (hc : c ≠ '0') (h : Digits (c :: text)) :
      WholeText (c :: text)

/-- A fraction, which may be missing, and its digits. -/
inductive FractionText : List Char → List Char → Prop where
  | none : FractionText [] []
  | some {digits : List Char} (h : Digits digits) : FractionText ('.' :: digits) digits

/-- An exponent, which may be missing, and its value. -/
inductive ExponentText : List Char → Int → Prop where
  | none : ExponentText [] 0
  | unsigned {mark : Char} {digits : List Char} (hmark : mark = 'e' ∨ mark = 'E')
      (h : Digits digits) : ExponentText (mark :: digits) (Decimal.ofDigits digits)
  | plus {mark : Char} {digits : List Char} (hmark : mark = 'e' ∨ mark = 'E')
      (h : Digits digits) : ExponentText (mark :: '+' :: digits) (Decimal.ofDigits digits)
  | minus {mark : Char} {digits : List Char} (hmark : mark = 'e' ∨ mark = 'E')
      (h : Digits digits) : ExponentText (mark :: '-' :: digits) (-Decimal.ofDigits digits)

/-- A numeral without its sign. -/
inductive UnsignedText (negative : Bool) : List Char → Numeral → Prop where
  | mk {whole fraction exponent digits : List Char} {value : Int} (hwhole : WholeText whole)
      (hfraction : FractionText fraction digits) (hexponent : ExponentText exponent value) :
      UnsignedText negative (whole ++ (fraction ++ exponent)) ⟨negative, whole, digits, value⟩

/-- A numeral and its parts. -/
inductive NumeralText : List Char → Numeral → Prop where
  | positive {text : List Char} {numeral : Numeral} (h : UnsignedText false text numeral) :
      NumeralText text numeral
  | negative {text : List Char} {numeral : Numeral} (h : UnsignedText true text numeral) :
      NumeralText ('-' :: text) numeral

/-- A numeral with a finite value. -/
def NumberText (text : List Char) (x : Float) : Prop :=
  ∃ numeral, NumeralText text numeral ∧ numeral.value? = some x

theorem WholeText.isDigit (h : WholeText text) : ∀ c ∈ text, c.isDigit = true := by
  cases h with
  | zero => exact List.forall_mem_singleton.2 rfl
  | digits _ h => exact h.isDigit

theorem WholeText.ne_nil (h : WholeText text) : text ≠ [] := by
  cases h <;> exact List.cons_ne_nil _ _

theorem wholeDigits_append (h : WholeText text) (hrest : NoDigit rest) (cut : Problem) :
    wholeDigits cut (text ++ rest) = .ok (text, rest) := by
  cases h with
  | zero =>
    cases rest with
    | nil => rfl
    | cons c rest => exact wholeDigits_zero_cons (Bool.eq_false_iff.1 (hrest c rfl)) rest
  | digits hc h =>
    rw [List.cons_append, wholeDigits_of_ne hc]
    exact digits_append h hrest cut

theorem fraction_append {found : List Char} (h : FractionText text found) (hrest : NoDigit rest)
    (hpoint : ∀ more, rest ≠ '.' :: more) (cut : Problem) :
    fraction cut (text ++ rest) = .ok (found, rest) := by
  rw [fraction_eq]
  cases h with
  | none => exact branch_of_ne hpoint
  | some h => exact digits_append h hrest cut

theorem exponentDigits_append (h : Digits text) (hrest : NoDigit rest) (cut : Problem)
    (value : List Char → Int) :
    exponentDigits cut value (text ++ rest) = .ok (value text, rest) := by
  rw [exponentDigits, digits_append h hrest]
  rfl

theorem exponent_append {value : Int} (h : ExponentText text value) (hrest : EndsNumeral rest)
    (cut : Problem) : exponent cut (text ++ rest) = .ok (value, rest) := by
  have hmarked : ∀ {mark : Char} (more : List Char), mark = 'e' ∨ mark = 'E' →
      exponent cut (mark :: more) = signedExponent cut more := by
    rintro _ more (rfl | rfl)
    · rw [exponent_eq]
      rfl
    · rw [exponent_eq]
      rfl
  have hdigit := noDigit_of_endsNumeral hrest
  cases h with
  | none =>
    cases rest with
    | nil => rfl
    | cons c rest => exact if_neg (not_or.2 ⟨hrest.2.2.1, hrest.2.2.2⟩)
  | unsigned hmark h =>
    rw [List.cons_append, hmarked _ hmark, signedExponent,
      branch_of_ne (h.ne_cons (by decide) rest), branch_of_ne (h.ne_cons (by decide) rest)]
    exact exponentDigits_append h hdigit cut _
  | plus hmark h =>
    rw [List.cons_append, hmarked _ hmark]
    exact exponentDigits_append h hdigit cut fun found ↦ Decimal.ofDigits found
  | minus hmark h =>
    rw [List.cons_append, hmarked _ hmark]
    exact exponentDigits_append h hdigit cut fun found ↦ -Decimal.ofDigits found

/-- What follows a fraction goes on with neither a digit nor a point. -/
theorem ExponentText.follows {value : Int} (h : ExponentText text value)
    (hrest : EndsNumeral rest) :
    NoDigit (text ++ rest) ∧ ∀ more, text ++ rest ≠ '.' :: more := by
  have hmarked : ∀ {mark : Char} (more : List Char), mark = 'e' ∨ mark = 'E' →
      NoDigit (mark :: more) ∧ ∀ after, mark :: more ≠ '.' :: after := by
    rintro _ more (rfl | rfl)
    · exact ⟨noDigit_cons rfl more, by simp⟩
    · exact ⟨noDigit_cons rfl more, by simp⟩
  cases h with
  | none =>
    refine ⟨noDigit_of_endsNumeral hrest, ?_⟩
    rintro more rfl
    exact hrest.2.1 rfl
  | unsigned hmark => exact hmarked _ hmark
  | plus hmark => exact hmarked _ hmark
  | minus hmark => exact hmarked _ hmark

theorem FractionText.noDigit {found : List Char} (h : FractionText text found)
    (hrest : NoDigit rest) : NoDigit (text ++ rest) := by
  cases h with
  | none => exact hrest
  | some => exact noDigit_cons rfl _

theorem unsigned_append {negative : Bool} {value : Numeral} (h : UnsignedText negative text value)
    (hrest : EndsNumeral rest) (cut : Problem) :
    unsigned cut negative (text ++ rest) = .ok (value, rest) := by
  obtain @⟨whole, fraction, exponent, found, e, hwhole, hfraction, hexponent⟩ := h
  obtain ⟨hdigit, hpoint⟩ := hexponent.follows hrest
  rw [List.append_assoc, List.append_assoc, unsigned,
    wholeDigits_append hwhole (hfraction.noDigit hdigit)]
  change (Json.fraction cut (fraction ++ (exponent ++ rest)) >>= _) = _
  rw [fraction_append hfraction hdigit hpoint]
  change (Json.exponent cut (exponent ++ rest) >>= _) = _
  rw [exponent_append hexponent hrest]
  rfl

theorem UnsignedText.exists_digit {negative : Bool} {value : Numeral}
    (h : UnsignedText negative text value) : ∃ c more, text = c :: more ∧ c.isDigit = true := by
  obtain @⟨whole, fraction, exponent, found, e, hwhole, hfraction, hexponent⟩ := h
  obtain ⟨c, more, rfl⟩ := List.exists_cons_of_ne_nil hwhole.ne_nil
  exact ⟨c, _, rfl, hwhole.isDigit c List.mem_cons_self⟩

theorem NumeralText.exists_startsNumeral {value : Numeral} (h : NumeralText text value) :
    ∃ c more, text = c :: more ∧ startsNumeral c = true := by
  cases h with
  | positive h =>
    obtain ⟨c, more, rfl, hc⟩ := h.exists_digit
    exact ⟨c, more, rfl, by rw [startsNumeral, hc, Bool.or_true]⟩
  | negative h => exact ⟨'-', _, rfl, rfl⟩

/-- A numeral is read whatever follows it, if that does not continue it. -/
theorem numeral_append {value : Numeral} (h : NumeralText text value) (hrest : EndsNumeral rest)
    (cut : Problem) : numeral cut (text ++ rest) = .ok (value, rest) := by
  rw [numeral_eq]
  cases h with
  | positive h =>
    obtain ⟨c, more, rfl, hc⟩ := h.exists_digit
    have hminus : ∀ after, c :: more ++ rest ≠ '-' :: after := by
      intro after heq
      rw [(List.cons.inj heq).1] at hc
      cases hc
    rw [branch_of_ne hminus]
    exact unsigned_append h hrest cut
  | negative h => exact unsigned_append h hrest cut

theorem reads_numberText {x : Float} (h : NumberText text x) : Reads readNumber text x := by
  obtain ⟨value, hvalue, hx⟩ := h
  apply reads_number
  have hnil : EndsNumeral [] := trivial
  have hread := numeral_append hvalue hnil .truncated
  rw [List.append_nil] at hread
  simp only [number, hread, bind, Except.bind, hx]
  rfl

/-! ## Strings -/

/-- Characters that stand for themselves in a string. -/
def isPlain (c : Char) : Bool :=
  c != '"' && c != '\\' && decide (0x20 ≤ c.toNat)

/-- What stands between the quotes of a string whose units need no partner. -/
inductive StringText : List Char → Prop where
  | nil : StringText []
  | plain {c : Char} {text : List Char} (hc : isPlain c = true) (h : StringText text) :
      StringText (c :: text)
  | short {c : Char} {text : List Char} (hc : (escaped? c).isSome = true) (h : StringText text) :
      StringText ('\\' :: c :: text)
  | unit {a b c d : Char} {text : List Char} (hunit : (hexUnit? a b c d).isSome = true)
      (h : StringText text) : StringText ('\\' :: 'u' :: a :: b :: c :: d :: text)

/-- What stands between the quotes of a key, and the key. -/
inductive KeyText : List Char → List Char → Prop where
  | nil : KeyText [] []
  | plain {c : Char} {text key : List Char} (hc : isPlain c = true) (h : KeyText text key) :
      KeyText (c :: text) (c :: key)
  | short {c e : Char} {text key : List Char} (hc : escaped? c = some e) (h : KeyText text key) :
      KeyText ('\\' :: c :: text) (e :: key)
  | unit {a b c d : Char} {unit : Nat} {text key : List Char}
      (hunit : hexUnit? a b c d = some unit) (hleading : isLeading unit = false)
      (htrailing : isTrailing unit = false) (h : KeyText text key) :
      KeyText ('\\' :: 'u' :: a :: b :: c :: d :: text) (Char.ofNat unit :: key)
  | pair {a b c d a' b' c' d' : Char} {first second : Nat} {text key : List Char}
      (hfirst : hexUnit? a b c d = some first) (hleading : isLeading first = true)
      (hsecond : hexUnit? a' b' c' d' = some second) (htrailing : isTrailing second = true)
      (h : KeyText text key) :
      KeyText
        ('\\' :: 'u' :: a :: b :: c :: d :: '\\' :: 'u' :: a' :: b' :: c' :: d' :: text)
        (Char.ofNat (0x10000 + (first - 0xd800) * 0x400 + (second - 0xdc00)) :: key)

theorem isPlain_iff {c : Char} : isPlain c = true ↔ c ≠ '"' ∧ c ≠ '\\' ∧ ¬ c.toNat < 0x20 := by
  rw [isPlain, Bool.and_eq_true, Bool.and_eq_true, bne_iff_ne, bne_iff_ne, decide_eq_true_eq,
    Nat.not_lt, and_assoc]

theorem ne_u_of_escaped {c e : Char} (h : escaped? c = some e) : c ≠ 'u' := by
  rintro rfl
  cases h

/-! ### Passing over -/

theorem skipString_append (h : StringText text) (rest : List Char) :
    skipString (text ++ '"' :: rest) = .ok rest := by
  induction h with
  | nil =>
    rw [List.nil_append, skipString.eq_def]
    exact if_pos rfl
  | plain hc _ ih =>
    obtain ⟨hquote, hescape, hcontrol⟩ := isPlain_iff.1 hc
    rw [List.cons_append, skipString.eq_def]
    exact (if_neg hquote).trans ((if_neg hescape).trans ((if_neg hcontrol).trans ih))
  | short hc _ ih =>
    obtain ⟨e, he⟩ := Option.isSome_iff_exists.1 hc
    rw [List.cons_append, List.cons_append, skipString.eq_def]
    exact (if_neg (ne_u_of_escaped he)).trans ((if_pos hc).trans ih)
  | unit hunit _ ih =>
    simp only [List.cons_append]
    rw [skipString.eq_def]
    exact (if_pos hunit).trans ih

/-! ### Reading -/

/-- What a string is, by its first character. -/
theorem string_cons (c : Char) (rest : List Char) :
    string (c :: rest) =
      if c = '"' then .ok ([], rest)
      else if c = '\\' then
        escape rest >>= fun read ↦ (string read.2).map (consRead read.1)
      else if c.toNat < 0x20 then .error .malformed
      else (string rest).map (consRead c) := by
  rw [string]
  congr 2
  split
  · rename_i problem hread
    rw [hread]
    rfl
  · rename_i e after hread
    rw [hread]
    rfl

theorem string_quote (rest : List Char) : string ('"' :: rest) = .ok ([], rest) :=
  (string_cons _ _).trans (if_pos rfl)

theorem string_plain {c : Char} (hc : isPlain c = true) (rest : List Char) :
    string (c :: rest) = (string rest).map (consRead c) := by
  obtain ⟨hquote, hescape, hcontrol⟩ := isPlain_iff.1 hc
  rw [string_cons, if_neg hquote, if_neg hescape, if_neg hcontrol]

theorem string_escape {c : Char} {after : List Char} (h : escape text = .ok (c, after)) :
    string ('\\' :: text) = (string after).map (consRead c) := by
  rw [string_cons, if_neg (by decide), if_pos rfl, h]
  rfl

theorem escape_short {c e : Char} (h : escaped? c = some e) (rest : List Char) :
    escape (c :: rest) = .ok (e, rest) := by
  refine (if_neg (ne_u_of_escaped h)).trans ?_
  rw [h]

theorem hexUnit_of_some {a b c d : Char} {unit : Nat} (hunit : hexUnit? a b c d = some unit)
    (rest : List Char) : hexUnit (a :: b :: c :: d :: rest) = .ok (unit, rest) := by
  rw [hexUnit, hunit]

theorem escape_unit {a b c d : Char} {unit : Nat} (hunit : hexUnit? a b c d = some unit)
    (hleading : isLeading unit = false) (htrailing : isTrailing unit = false) (rest : List Char) :
    escape ('u' :: a :: b :: c :: d :: rest) = .ok (Char.ofNat unit, rest) := by
  change (hexUnit _ >>= _) = _
  rw [hexUnit_of_some hunit]
  exact (if_neg (Bool.eq_false_iff.1 htrailing)).trans (if_neg (Bool.eq_false_iff.1 hleading))

theorem escape_pair {a b c d a' b' c' d' : Char} {first second : Nat}
    (hfirst : hexUnit? a b c d = some first) (hleading : isLeading first = true)
    (hsecond : hexUnit? a' b' c' d' = some second) (htrailing : isTrailing second = true)
    (rest : List Char) :
    escape ('u' :: a :: b :: c :: d :: '\\' :: 'u' :: a' :: b' :: c' :: d' :: rest) =
      .ok (Char.ofNat (0x10000 + (first - 0xd800) * 0x400 + (second - 0xdc00)), rest) := by
  have hnot : ¬ isTrailing first = true := by
    simp only [isLeading, isTrailing, decide_eq_true_eq] at hleading ⊢
    omega
  change (hexUnit _ >>= _) = _
  rw [hexUnit_of_some hfirst]
  refine (if_neg hnot).trans ((if_pos hleading).trans ?_)
  change (hexUnit _ >>= _) = _
  rw [hexUnit_of_some hsecond]
  exact if_pos htrailing

theorem string_append {key : List Char} (h : KeyText text key) (rest : List Char) :
    string (text ++ '"' :: rest) = .ok (key, rest) := by
  induction h with
  | nil => exact string_quote rest
  | plain hc _ ih =>
    rw [List.cons_append, string_plain hc, ih]
    rfl
  | short hc _ ih =>
    rw [List.cons_append, List.cons_append, string_escape (escape_short hc _), ih]
    rfl
  | unit hunit hleading htrailing _ ih =>
    simp only [List.cons_append]
    rw [string_escape (escape_unit hunit hleading htrailing _), ih]
    rfl
  | pair hfirst hleading hsecond htrailing _ ih =>
    simp only [List.cons_append]
    rw [string_escape (escape_pair hfirst hleading hsecond htrailing _), ih]
    rfl

/-- Plain characters spell the key that they are. -/
theorem keyText_of_plain {key : List Char} (h : ∀ c ∈ key, isPlain c = true) :
    KeyText key key := by
  induction key with
  | nil => exact .nil
  | cons c key ih =>
    rw [List.forall_mem_cons] at h
    exact .plain h.1 (ih h.2)

end Json

end MixedInteger
