import Mathlib.Tactic.SplitIfs
import MixedInteger.Json.Number

/-!
# Numbers before other text

A numeral is the only token of JSON without an end of its own: it goes on as long as digits, a point
or an exponent follow.  What is read of a number is the front of the text, and it stays the same
when more text is put behind, unless the number reaches the end of the text and what comes can
continue it.  So a number that is read off a text of its own is read in the same way inside an array.
-/

namespace MixedInteger

namespace Json

variable {β γ : Type}

/-! ## Readers in sequence -/

theorem bind_eq_ok_iff {x : Except Problem β} {f : β → Except Problem γ} {result : γ} :
    (x >>= f) = .ok result ↔ ∃ value, x = .ok value ∧ f value = .ok result := by
  cases x with
  | error problem => exact iff_of_false nofun nofun
  | ok value =>
    constructor
    · exact fun h ↦ ⟨value, rfl, h⟩
    · rintro ⟨_, ⟨⟩, h⟩
      exact h

/-- A text with which no numeral before it goes on. -/
def EndsNumeral : List Char → Prop
  | [] => True
  | c :: _ => c.isDigit = false ∧ c ≠ '.' ∧ c ≠ 'e' ∧ c ≠ 'E'

/-- A reader takes the front of a text, and takes the same when more text follows that does not
continue a numeral at the end. -/
structure Extends (read : Reader β) : Prop where
  suffix : ∀ {text rest value}, read text = .ok (value, rest) → rest <:+ text
  append : ∀ {text rest value}, read text = .ok (value, rest) → ∀ more,
    (rest = [] → EndsNumeral more) → read (text ++ more) = .ok (value, rest ++ more)

namespace Extends

/-- A reader that takes nothing. -/
theorem pure (value : β) : Extends fun text ↦ .ok (value, text) where
  suffix h := by
    cases h
    exact List.suffix_rfl
  append h more _ := by
    cases h
    rfl

theorem error (problem : Problem) : Extends (β := β) fun _ ↦ .error problem where
  suffix h := nomatch h
  append h := nomatch h

/-- A reader that goes on where another one ended. -/
theorem bind {first : Reader β} {second : β × List Char → Except Problem (γ × List Char)}
    (hfirst : Extends first) (hsecond : ∀ value, Extends fun text ↦ second (value, text)) :
    Extends fun text ↦ first text >>= second where
  suffix h := by
    obtain ⟨⟨value, middle⟩, hread, h⟩ := bind_eq_ok_iff.1 h
    exact ((hsecond value).suffix h).trans (hfirst.suffix hread)
  append {text rest result} h more hmore := by
    obtain ⟨⟨value, middle⟩, hread, h⟩ := bind_eq_ok_iff.1 h
    have hrest : middle = [] → EndsNumeral more := by
      rintro rfl
      exact hmore (List.suffix_nil.1 ((hsecond value).suffix h))
    exact bind_eq_ok_iff.2
      ⟨(value, middle ++ more), hfirst.append hread more hrest, (hsecond value).append h more hmore⟩

end Extends

/-- Goes on in one way behind a character of a kind, and in another way at any other. -/
def branch (mark : Char → Bool) (behind otherwise : Reader β) : Reader β
  | c :: rest => if mark c then behind rest else otherwise (c :: rest)
  | [] => otherwise []

theorem branch_cons (mark : Char → Bool) (behind otherwise : Reader β) (c : Char)
    (rest : List Char) : branch mark behind otherwise (c :: rest) =
      if mark c then behind rest else otherwise (c :: rest) := rfl

/-- At any other character a branch goes the other way. -/
theorem branch_of_ne {mark : Char} {behind otherwise : Reader β} {text : List Char}
    (h : ∀ rest, text ≠ mark :: rest) :
    branch (· == mark) behind otherwise text = otherwise text := by
  cases text with
  | nil => rfl
  | cons c rest =>
    apply if_neg
    exact fun hc ↦ h rest (congrArg (· :: rest) (eq_of_beq hc))

/-- A branch looks no further than its two ways, if what ends a numeral is no mark wherever the
other way accepts the end of the text. -/
theorem Extends.branch {mark : Char → Bool} {behind otherwise : Reader β}
    (hbehind : Extends behind) (hotherwise : Extends otherwise)
    (hend : ∀ result, otherwise [] = .ok result → ∀ c more, EndsNumeral (c :: more) →
      mark c = false) : Extends (branch mark behind otherwise) where
  suffix {text rest value} h := by
    cases text with
    | nil => exact hotherwise.suffix h
    | cons c after =>
      rw [branch_cons] at h
      split_ifs at h
      · exact (hbehind.suffix h).trans (List.suffix_cons c after)
      · exact hotherwise.suffix h
  append {text rest value} h more hmore := by
    cases text with
    | nil =>
      obtain rfl : rest = [] := List.suffix_nil.1 (hotherwise.suffix h)
      cases more with
      | nil => exact h
      | cons c more =>
        have hc : mark c = false := hend _ h c more (hmore rfl)
        rw [List.nil_append, branch_cons, hc]
        exact hotherwise.append h (c :: more) hmore
    | cons c after =>
      rw [branch_cons] at h
      rw [List.cons_append, branch_cons]
      split_ifs at h ⊢
      · exact hbehind.append h more hmore
      · exact hotherwise.append h more hmore

/-! ## Digits -/

theorem digits_eq_ok_iff {cut : Problem} {text found rest : List Char} :
    digits cut text = .ok (found, rest) ↔
      found ≠ [] ∧ text.takeWhile Char.isDigit = found ∧ text.dropWhile Char.isDigit = rest := by
  unfold digits
  cases htake : text.takeWhile Char.isDigit with
  | nil =>
    refine iff_of_false ?_ fun h ↦ h.1 h.2.1.symm
    cases text <;> nofun
  | cons c after =>
    rw [Except.ok.injEq, Prod.mk.injEq]
    constructor
    · rintro ⟨rfl, hrest⟩
      exact ⟨List.cons_ne_nil _ _, rfl, hrest⟩
    · exact fun h ↦ h.2

theorem isDigit_of_endsNumeral {more : List Char} (h : EndsNumeral more) :
    more.takeWhile Char.isDigit = [] ∧ more.dropWhile Char.isDigit = more := by
  cases more with
  | nil => exact ⟨rfl, rfl⟩
  | cons c rest =>
    rw [List.takeWhile_cons_of_neg (Bool.eq_false_iff.1 h.1),
      List.dropWhile_cons_of_neg (Bool.eq_false_iff.1 h.1)]
    exact ⟨rfl, rfl⟩

/-- Digits that end before the text does, or are followed by no digit, are the same in front of
more text. -/
theorem takeWhile_append_of_ends {text more : List Char}
    (h : text.dropWhile Char.isDigit = [] → EndsNumeral more) :
    (text ++ more).takeWhile Char.isDigit = text.takeWhile Char.isDigit ∧
      (text ++ more).dropWhile Char.isDigit = text.dropWhile Char.isDigit ++ more := by
  induction text with
  | nil => exact isDigit_of_endsNumeral (h rfl)
  | cons c rest ih =>
    by_cases hc : c.isDigit = true
    · rw [List.dropWhile_cons_of_pos hc] at h
      obtain ⟨htake, hdrop⟩ := ih h
      rw [List.cons_append, List.takeWhile_cons_of_pos hc, List.takeWhile_cons_of_pos hc,
        List.dropWhile_cons_of_pos hc, List.dropWhile_cons_of_pos hc, htake, hdrop]
      exact ⟨rfl, rfl⟩
    · rw [List.cons_append, List.takeWhile_cons_of_neg hc, List.takeWhile_cons_of_neg hc,
        List.dropWhile_cons_of_neg hc, List.dropWhile_cons_of_neg hc]
      exact ⟨rfl, rfl⟩

theorem digits_extends (cut : Problem) : Extends (digits cut) where
  suffix h := by
    obtain ⟨-, -, rfl⟩ := digits_eq_ok_iff.1 h
    exact List.dropWhile_suffix _
  append h more hmore := by
    obtain ⟨hne, rfl, rfl⟩ := digits_eq_ok_iff.1 h
    exact digits_eq_ok_iff.2 ⟨hne, takeWhile_append_of_ends hmore⟩

/-! ## Parts of a numeral -/

theorem wholeDigits_of_ne {cut : Problem} {c : Char} (hc : c ≠ '0') (rest : List Char) :
    wholeDigits cut (c :: rest) = digits cut (c :: rest) := by
  unfold wholeDigits
  split
  · rename_i heq
    cases heq
    exact absurd rfl hc
  · rfl

theorem wholeDigits_zero_cons {cut : Problem} {c : Char} (hc : ¬ c.isDigit = true)
    (rest : List Char) : wholeDigits cut ('0' :: c :: rest) = .ok (['0'], c :: rest) :=
  if_neg hc

theorem wholeDigits_extends (cut : Problem) : Extends (wholeDigits cut) where
  suffix h := by
    unfold wholeDigits at h
    split at h
    · split_ifs at h
      cases h
      exact List.suffix_cons _ _
    · exact (digits_extends cut).suffix h
  append {text rest value} h more hmore := by
    cases text with
    | nil => cases h
    | cons c after =>
      by_cases hc : c = '0'
      · subst hc
        cases after with
        | nil =>
          -- behind a lone zero the text must not go on with a digit
          cases h
          cases more with
          | nil => rfl
          | cons d more => exact wholeDigits_zero_cons (Bool.eq_false_iff.1 (hmore rfl).1) more
        | cons d after =>
          change (if d.isDigit then _ else _) = _ at h
          split_ifs at h with hd
          cases h
          exact wholeDigits_zero_cons hd _
      · rw [wholeDigits_of_ne hc] at h
        rw [List.cons_append, wholeDigits_of_ne hc]
        exact (digits_extends cut).append h more hmore

theorem fraction_eq (cut : Problem) :
    fraction cut = branch (· == '.') (digits cut) fun text ↦ .ok ([], text) := by
  funext text
  unfold fraction
  split
  · rfl
  · rename_i hpoint
    rw [branch_of_ne hpoint]

theorem fraction_extends (cut : Problem) : Extends (fraction cut) := by
  rw [fraction_eq]
  apply (digits_extends cut).branch (.pure [])
  intro _ _ c more hends
  exact beq_false_of_ne hends.2.1

/-- The digits of an exponent with a value that depends on its sign. -/
def exponentDigits (cut : Problem) (value : List Char → Int) : Reader Int := fun text ↦
  digits cut text >>= fun read ↦ .ok (value read.1, read.2)

theorem exponentDigits_extends (cut : Problem) (value : List Char → Int) :
    Extends (exponentDigits cut value) :=
  (digits_extends cut).bind fun found ↦ .pure (value found)

/-- An exponent without its mark. -/
def signedExponent (cut : Problem) : Reader Int :=
  branch (· == '+') (exponentDigits cut fun found ↦ Decimal.ofDigits found)
    (branch (· == '-') (exponentDigits cut fun found ↦ -Decimal.ofDigits found)
      (exponentDigits cut fun found ↦ Decimal.ofDigits found))

theorem signedExponent_extends (cut : Problem) : Extends (signedExponent cut) := by
  apply (exponentDigits_extends cut _).branch
  · apply (exponentDigits_extends cut _).branch (exponentDigits_extends cut _)
    nofun
  · nofun

theorem exponent_eq (cut : Problem) :
    exponent cut =
      branch (fun c ↦ c == 'e' || c == 'E') (signedExponent cut) fun text ↦ .ok (0, text) := by
  funext text
  cases text with
  | nil => rfl
  | cons c rest =>
    rw [branch_cons]
    simp only [Bool.or_eq_true, beq_iff_eq]
    by_cases hc : c = 'e' ∨ c = 'E'
    · rw [if_pos hc]
      refine (if_pos hc).trans ?_
      split
      · rfl
      · rfl
      · rename_i hplus hminus
        rw [signedExponent, branch_of_ne hplus, branch_of_ne hminus]
        rfl
    · rw [if_neg hc]
      exact if_neg hc

theorem exponent_extends (cut : Problem) : Extends (exponent cut) := by
  rw [exponent_eq]
  apply (signedExponent_extends cut).branch (.pure 0)
  intro _ _ c more hends
  rw [beq_false_of_ne hends.2.2.1, beq_false_of_ne hends.2.2.2, Bool.or_false]

/-- A numeral without its sign. -/
def unsigned (cut : Problem) (negative : Bool) : Reader Numeral := fun text ↦
  wholeDigits cut text >>= fun whole ↦
    fraction cut whole.2 >>= fun fraction ↦
      exponent cut fraction.2 >>= fun exponent ↦
        .ok (⟨negative, whole.1, fraction.1, exponent.1⟩, exponent.2)

theorem unsigned_extends (cut : Problem) (negative : Bool) : Extends (unsigned cut negative) := by
  apply (wholeDigits_extends cut).bind
  intro whole
  dsimp only
  apply (fraction_extends cut).bind
  intro fraction
  dsimp only
  apply (exponent_extends cut).bind
  exact fun exponent ↦ .pure (Numeral.mk negative whole fraction exponent)

theorem numeral_eq (cut : Problem) :
    numeral cut = branch (· == '-') (unsigned cut true) (unsigned cut false) := by
  funext text
  unfold numeral
  dsimp only
  split
  · rfl
  · rename_i hminus
    rw [branch_of_ne hminus]
    rfl

theorem numeral_extends (cut : Problem) : Extends (numeral cut) := by
  rw [numeral_eq]
  apply (unsigned_extends cut true).branch (unsigned_extends cut false)
  nofun

theorem number_extends : Extends number := by
  apply (numeral_extends .truncated).bind
  intro numeral
  dsimp only
  cases numeral.value? with
  | some value => exact .pure value
  | none => exact .error .malformed

/-! ## First characters -/

/-- A numeral begins with a sign or a digit. -/
theorem exists_startsNumeral {cut : Problem} {text rest : List Char} {value : Numeral}
    (h : numeral cut text = .ok (value, rest)) :
    ∃ c more, text = c :: more ∧ startsNumeral c = true := by
  rw [numeral_eq] at h
  cases text with
  | nil => cases h
  | cons c more =>
    refine ⟨c, more, rfl, ?_⟩
    rw [branch_cons] at h
    split_ifs at h with hc
    · rw [startsNumeral, hc, Bool.true_or]
    · obtain ⟨⟨found, after⟩, hwhole, -⟩ := bind_eq_ok_iff.1 h
      by_cases hzero : c = '0'
      · rw [hzero]
        rfl
      · rw [wholeDigits_of_ne hzero] at hwhole
        obtain ⟨hne, hfound, -⟩ := digits_eq_ok_iff.1 hwhole
        rw [startsNumeral, Bool.or_eq_true]
        refine .inr (Decidable.byContradiction fun hdigit ↦ hne ?_)
        rw [← hfound]
        exact List.takeWhile_cons_of_neg hdigit

end Json

end MixedInteger
