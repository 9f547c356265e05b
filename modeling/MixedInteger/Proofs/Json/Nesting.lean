import MixedInteger.Json.Skip
import MixedInteger.Proofs.Json.Tokens

/-!
# Values of any nesting

A value is a word, a number, a string, or a bracket with items inside, each of which is a value or
a member with a value.  The depth of such a text has no limit, and neither has the size of its
numbers; units of escapes need no partner in it.

All of it can be passed over: the work is at most two steps for each character, so what is allowed
for a text is enough for every value in it.
-/

namespace MixedInteger

namespace Json

/-! ## Well-formed texts -/

/-- The character that opens a bracket. -/
def Bracket.opening : Bracket → Char
  | array => '['
  | object => '{'

/-- What a piece of text is: a value, what stands between two commas inside a bracket, or all that
stands inside a bracket that is not empty. -/
inductive Piece where
  | value
  | item (bracket : Bracket)
  | items (bracket : Bracket)

/-- A text is a piece of JSON. -/
inductive WellFormed : Piece → List Char → Prop where
  | null : WellFormed .value ['n', 'u', 'l', 'l']
  | true : WellFormed .value ['t', 'r', 'u', 'e']
  | false : WellFormed .value ['f', 'a', 'l', 's', 'e']
  | number {text : List Char} {numeral : Numeral} (h : NumeralText text numeral) :
      WellFormed .value text
  | string {text : List Char} (h : StringText text) : WellFormed .value ('"' :: (text ++ ['"']))
  | empty (bracket : Bracket) {space : List Char} (hspace : Blank space) :
      WellFormed .value (bracket.opening :: (space ++ [bracket.closing]))
  | group {bracket : Bracket} {text : List Char} (h : WellFormed (.items bracket) text) :
      WellFormed .value (bracket.opening :: (text ++ [bracket.closing]))
  | entry {before text after : List Char} (hbefore : Blank before) (h : WellFormed .value text)
      (hafter : Blank after) : WellFormed (.item .array) (before ++ (text ++ after))
  | member {before key gap space text after : List Char} (hbefore : Blank before)
      (hkey : StringText key) (hgap : Blank gap) (hspace : Blank space)
      (h : WellFormed .value text) (hafter : Blank after) :
      WellFormed (.item .object)
        (before ++ '"' :: (key ++ '"' :: (gap ++ ':' :: (space ++ (text ++ after)))))
  | last {bracket : Bracket} {text : List Char} (h : WellFormed (.item bracket) text) :
      WellFormed (.items bracket) text
  | more {bracket : Bracket} {text more : List Char} (h : WellFormed (.item bracket) text)
      (hmore : WellFormed (.items bracket) more) : WellFormed (.items bracket) (text ++ ',' :: more)

/-! ## First characters -/

/-- A text begins with a character that can begin a value. -/
def BeginsValue (text : List Char) : Prop :=
  ∃ c more, text = c :: more ∧ isSpace c = false ∧ ∀ bracket : Bracket, c ≠ bracket.closing

theorem ne_closing_of_startsNumeral {c : Char} (h : startsNumeral c = true) (bracket : Bracket) :
    c ≠ bracket.closing := by
  rintro rfl
  cases bracket <;> exact absurd h (by decide)

theorem WellFormed.beginsValue {text : List Char} (h : WellFormed .value text) :
    BeginsValue text := by
  cases h with
  | number h =>
    obtain ⟨c, more, rfl, hc⟩ := h.exists_startsNumeral
    exact ⟨c, more, rfl, not_space_of_startsNumeral hc, ne_closing_of_startsNumeral hc⟩
  | empty bracket =>
    refine ⟨_, _, rfl, ?_, fun other ↦ ?_⟩
    · cases bracket <;> rfl
    · cases bracket <;> cases other <;> decide
  | @group bracket =>
    refine ⟨_, _, rfl, ?_, fun other ↦ ?_⟩
    · cases bracket <;> rfl
    · cases bracket <;> cases other <;> decide
  | _ => exact ⟨_, _, rfl, rfl, fun bracket ↦ by cases bracket <;> decide⟩

/-- An item begins with a character that does not close a bracket. -/
theorem WellFormed.item_cons {bracket : Bracket} {text : List Char}
    (h : WellFormed (.item bracket) text) (rest : List Char) :
    ∃ c more, dropSpace (text ++ rest) = c :: more ∧ c ≠ bracket.closing := by
  cases h with
  | entry hbefore h =>
    obtain ⟨c, more, rfl, hspace, hclosing⟩ := h.beginsValue
    rw [List.append_assoc, dropSpace_append hbefore]
    exact ⟨c, _, dropSpace_cons hspace _, hclosing .array⟩
  | member hbefore =>
    rw [List.append_assoc, dropSpace_append hbefore]
    exact ⟨'"', _, rfl, by decide⟩

theorem WellFormed.items_cons {bracket : Bracket} {text : List Char}
    (h : WellFormed (.items bracket) text) (rest : List Char) :
    ∃ c more, dropSpace (text ++ rest) = c :: more ∧ c ≠ bracket.closing := by
  cases h with
  | last h => exact h.item_cons rest
  | more h =>
    rw [List.append_assoc]
    exact h.item_cons _

/-! ## Steps -/

section Steps

variable {fuel : Nat} {brackets outer : List Bracket} {bracket : Bracket} {text rest : List Char}

/-- White space in front is passed over, unless all is done. -/
theorem skipWithin_dropSpace {expected : Expected} (h : brackets ≠ [] ∨ expected = .value) :
    skipWithin fuel brackets expected (dropSpace text) =
      skipWithin fuel brackets expected text := by
  cases fuel with
  | zero => rfl
  | succ fuel =>
    cases brackets with
    | nil =>
      obtain rfl := h.resolve_left fun hnil ↦ hnil rfl
      simp only [skipWithin, dropSpace_dropSpace]
    | cons bracket outer => cases expected <;> simp only [skipWithin, dropSpace_dropSpace]

/-- Inside a bracket, white space in front is passed over. -/
theorem skipWithin_inside_dropSpace (expected : Expected) :
    skipWithin fuel (bracket :: outer) expected (dropSpace text) =
      skipWithin fuel (bracket :: outer) expected text :=
  skipWithin_dropSpace (.inl (List.cons_ne_nil bracket outer))

/-- The opening of a bracket is a value only together with what stands inside. -/
theorem skipWithin_opening :
    skipWithin (fuel + 1) brackets .value (bracket.opening :: text) =
      skipWithin fuel (bracket :: brackets) .entry text := by
  cases brackets <;> cases bracket <;> rfl

theorem skipWithin_closing :
    skipWithin (fuel + 1) (bracket :: outer) .nothing (bracket.closing :: text) =
      skipWithin fuel outer .nothing text := by
  cases bracket <;> rfl

theorem skipWithin_comma :
    skipWithin (fuel + 1) (bracket :: outer) .nothing (',' :: text) =
      skipWithin fuel (bracket :: outer) bracket.entry text := rfl

theorem skipWithin_empty {space : List Char} (hspace : Blank space) :
    skipWithin (fuel + 1) (bracket :: outer) .entry (space ++ bracket.closing :: rest) =
      skipWithin fuel outer .nothing rest := by
  rw [← skipWithin_inside_dropSpace, dropSpace_append hspace, skipWithin_inside_dropSpace]
  cases bracket <;> rfl

/-- The first character that is no white space says how a value and the first entry of a bracket go
on. -/
theorem skipWithin_cons {c : Char} (h : dropSpace text = c :: rest) :
    ((∀ bracket : Bracket, c ≠ bracket.opening) →
      skipWithin (fuel + 1) brackets .value text =
        skipScalar c rest >>= skipWithin fuel brackets .nothing) ∧
    ∀ bracket : Bracket, skipWithin (fuel + 1) (bracket :: brackets) .entry text =
      if c = bracket.closing then skipWithin fuel brackets .nothing rest
      else skipWithin fuel (bracket :: brackets) bracket.entry (c :: rest) := by
  simp only [skipWithin, h, implies_true, and_true]
  intro hscalar
  split
  · cases ‹c :: rest = []›
  · rename_i heq
    cases heq
    exact absurd rfl (hscalar .array)
  · rename_i heq
    cases heq
    exact absurd rfl (hscalar .object)
  · rename_i heq
    cases heq
    rfl

theorem skipWithin_first (h : ∃ c more, dropSpace text = c :: more ∧ c ≠ bracket.closing) :
    skipWithin (fuel + 1) (bracket :: outer) .entry text =
      skipWithin fuel (bracket :: outer) bracket.entry text := by
  obtain ⟨c, more, hcons, hc⟩ := h
  rw [(skipWithin_cons hcons).2 bracket, if_neg hc, ← hcons, skipWithin_inside_dropSpace]

theorem skipWithin_scalar {c : Char} (hspace : isSpace c = false)
    (hscalar : ∀ bracket : Bracket, c ≠ bracket.opening) (h : skipScalar c text = .ok rest) :
    skipWithin (fuel + 1) brackets .value (c :: text) =
      skipWithin fuel brackets .nothing rest := by
  rw [(skipWithin_cons (dropSpace_cons hspace text)).1 hscalar, h]
  rfl

theorem skipWithin_member {key gap : List Char} (hkey : StringText key) (hgap : Blank gap) :
    skipWithin (fuel + 1) brackets .key ('"' :: (key ++ '"' :: (gap ++ ':' :: text))) =
      skipWithin fuel brackets .value text := by
  have hcolon : dropSpace (gap ++ ':' :: text) = ':' :: text := dropSpace_append hgap _
  cases brackets <;>
  · change (skipString _ >>= _) = _
    rw [skipString_append hkey]
    dsimp only [bind, Except.bind]
    rw [hcolon]
    rfl

end Steps

/-! ## Passing over -/

/-- A piece is passed over in a number of steps, whatever brackets are open and whatever follows. -/
def Skips (steps : Nat) : Piece → List Char → Prop
  | .value, text => ∀ fuel brackets rest, EndsNumeral rest →
      skipWithin (fuel + steps) brackets .value (text ++ rest) =
        skipWithin fuel brackets .nothing rest
  | .item bracket, text => ∀ fuel outer rest, EndsNumeral rest →
      skipWithin (fuel + steps) (bracket :: outer) bracket.entry (text ++ rest) =
        skipWithin fuel (bracket :: outer) .nothing rest
  | .items bracket, text => ∀ fuel outer rest,
      skipWithin (fuel + steps) (bracket :: outer) bracket.entry
          (text ++ bracket.closing :: rest) =
        skipWithin fuel outer .nothing rest

/-- As many steps as the pieces of a length can need. -/
def Piece.allowance (length : Nat) : Piece → Nat
  | .items _ => 2 * length + 1
  | _ => 2 * length

theorem skips_scalar {c : Char} {text : List Char} (hspace : isSpace c = false)
    (hscalar : ∀ bracket : Bracket, c ≠ bracket.opening)
    (h : ∀ rest, EndsNumeral rest → skipScalar c (text ++ rest) = .ok rest) :
    Skips 1 .value (c :: text) := by
  intro fuel brackets rest hrest
  exact skipWithin_scalar hspace hscalar (h rest hrest)

theorem skips_number {text : List Char} {value : Numeral} (h : NumeralText text value) :
    Skips 1 .value text := by
  obtain ⟨c, more, rfl, hc⟩ := h.exists_startsNumeral
  have hne : ∀ d : Char, startsNumeral d = false → c ≠ d := by
    rintro _ hd rfl
    exact Bool.false_ne_true (hd.symm.trans hc)
  apply skips_scalar (not_space_of_startsNumeral hc)
  · exact fun bracket ↦ hne _ (by cases bracket <;> rfl)
  · intro rest hrest
    have hread := numeral_append h hrest .malformed
    rw [List.cons_append] at hread
    refine (if_neg (hne '"' rfl)).trans ((if_neg (hne 'n' rfl)).trans
      ((if_neg (hne 't' rfl)).trans ((if_neg (hne 'f' rfl)).trans ((if_pos hc).trans ?_))))
    rw [hread]
    rfl

theorem skips_string {text : List Char} (h : StringText text) :
    Skips 1 .value ('"' :: (text ++ ['"'])) := by
  apply skips_scalar rfl fun bracket ↦ by cases bracket <;> decide
  intro rest _
  rw [List.append_assoc]
  exact skipString_append h rest

theorem skips_empty (bracket : Bracket) {space : List Char} (hspace : Blank space) :
    Skips 2 .value (bracket.opening :: (space ++ [bracket.closing])) := by
  intro fuel brackets rest _
  calc
    _ = skipWithin (fuel + 1) (bracket :: brackets) .entry
          (space ++ [bracket.closing] ++ rest) := skipWithin_opening
    _ = skipWithin fuel brackets .nothing rest := by
      rw [List.append_assoc]
      exact skipWithin_empty hspace

theorem skips_group {bracket : Bracket} {text : List Char} {steps : Nat}
    (h : WellFormed (.items bracket) text) (hskips : Skips steps (.items bracket) text) :
    Skips (steps + 2) .value (bracket.opening :: (text ++ [bracket.closing])) := by
  intro fuel brackets rest _
  calc
    _ = skipWithin (fuel + steps + 1) (bracket :: brackets) .entry
          (text ++ [bracket.closing] ++ rest) := skipWithin_opening
    _ = skipWithin (fuel + steps) (bracket :: brackets) bracket.entry
          (text ++ [bracket.closing] ++ rest) := by
      rw [List.append_assoc]
      exact skipWithin_first (h.items_cons _)
    _ = skipWithin fuel brackets .nothing rest := by
      rw [List.append_assoc]
      exact hskips fuel brackets rest

/-- A value with white space around it is passed over inside a bracket. -/
theorem skips_padded {text space after : List Char} {steps : Nat} (hskips : Skips steps .value text)
    (hspace : Blank space) (hafter : Blank after) {rest : List Char} (hrest : EndsNumeral rest)
    (fuel : Nat) (bracket : Bracket) (outer : List Bracket) :
    skipWithin (fuel + steps) (bracket :: outer) .value (space ++ (text ++ (after ++ rest))) =
      skipWithin fuel (bracket :: outer) .nothing rest := by
  rw [← skipWithin_inside_dropSpace, dropSpace_append hspace, skipWithin_inside_dropSpace,
    hskips fuel _ _ (endsNumeral_of_blank hafter hrest), ← skipWithin_inside_dropSpace,
    dropSpace_append hafter, skipWithin_inside_dropSpace]

theorem skips_entry {before text after : List Char} {steps : Nat} (hbefore : Blank before)
    (hafter : Blank after) (hskips : Skips steps .value text) :
    Skips steps (.item .array) (before ++ (text ++ after)) := by
  intro fuel outer rest hrest
  rw [List.append_assoc, List.append_assoc]
  exact skips_padded hskips hbefore hafter hrest fuel .array outer

theorem skips_member {before key gap space text after : List Char} {steps : Nat}
    (hbefore : Blank before) (hkey : StringText key) (hgap : Blank gap) (hspace : Blank space)
    (hafter : Blank after) (hskips : Skips steps .value text) :
    Skips (steps + 1) (.item .object)
      (before ++ '"' :: (key ++ '"' :: (gap ++ ':' :: (space ++ (text ++ after))))) := by
  intro fuel outer rest hrest
  simp only [List.append_assoc, List.cons_append]
  change skipWithin _ _ .key _ = _
  rw [← skipWithin_inside_dropSpace, dropSpace_append hbefore, skipWithin_inside_dropSpace]
  exact (skipWithin_member hkey hgap).trans
    (skips_padded hskips hspace hafter hrest fuel .object outer)

theorem skips_last {bracket : Bracket} {text : List Char} {steps : Nat}
    (hskips : Skips steps (.item bracket) text) : Skips (steps + 1) (.items bracket) text := by
  intro fuel outer rest
  have hends : EndsNumeral (bracket.closing :: rest) := by
    cases bracket <;> exact ⟨by decide, by decide, by decide, by decide⟩
  calc
    _ = skipWithin (fuel + 1 + steps) (bracket :: outer) bracket.entry
          (text ++ bracket.closing :: rest) := by rw [Nat.add_right_comm, Nat.add_assoc]
    _ = skipWithin (fuel + 1) (bracket :: outer) .nothing (bracket.closing :: rest) :=
      hskips _ _ _ hends
    _ = skipWithin fuel outer .nothing rest := skipWithin_closing

theorem skips_more {bracket : Bracket} {text more : List Char} {steps others : Nat}
    (hskips : Skips steps (.item bracket) text) (hmore : Skips others (.items bracket) more) :
    Skips (others + 1 + steps) (.items bracket) (text ++ ',' :: more) := by
  intro fuel outer rest
  rw [List.append_assoc, List.cons_append, ← Nat.add_assoc fuel]
  calc
    _ = skipWithin (fuel + (others + 1)) (bracket :: outer) .nothing
          (',' :: (more ++ bracket.closing :: rest)) :=
      hskips _ _ _ ⟨by decide, by decide, by decide, by decide⟩
    _ = skipWithin (fuel + others) (bracket :: outer) bracket.entry
          (more ++ bracket.closing :: rest) := skipWithin_comma
    _ = skipWithin fuel outer .nothing rest := hmore fuel outer rest

/-- Every piece is passed over in at most two steps for each character and one more. -/
theorem WellFormed.exists_skips {piece : Piece} {text : List Char} (h : WellFormed piece text) :
    ∃ steps ≤ piece.allowance text.length, Skips steps piece text := by
  induction h with
  | null => exact ⟨1, by decide, skips_scalar rfl (by rintro (_ | _) <;> decide) fun _ _ ↦ rfl⟩
  | true => exact ⟨1, by decide, skips_scalar rfl (by rintro (_ | _) <;> decide) fun _ _ ↦ rfl⟩
  | false => exact ⟨1, by decide, skips_scalar rfl (by rintro (_ | _) <;> decide) fun _ _ ↦ rfl⟩
  | number h =>
    obtain ⟨c, more, rfl, -⟩ := h.exists_startsNumeral
    exact ⟨1, by simp only [Piece.allowance, List.length_cons]; omega, skips_number h⟩
  | string h => exact ⟨1, by simp only [Piece.allowance, List.length_cons]; omega, skips_string h⟩
  | empty bracket hspace =>
    refine ⟨2, ?_, skips_empty bracket hspace⟩
    simp only [Piece.allowance, List.length_cons, List.length_append]
    omega
  | group h ih =>
    obtain ⟨steps, hsteps, hskips⟩ := ih
    refine ⟨steps + 2, ?_, skips_group h hskips⟩
    simp only [Piece.allowance, List.length_cons, List.length_append] at hsteps ⊢
    omega
  | entry hbefore _ hafter ih =>
    obtain ⟨steps, hsteps, hskips⟩ := ih
    refine ⟨steps, ?_, skips_entry hbefore hafter hskips⟩
    simp only [Piece.allowance, List.length_append] at hsteps ⊢
    omega
  | member hbefore hkey hgap hspace _ hafter ih =>
    obtain ⟨steps, hsteps, hskips⟩ := ih
    refine ⟨steps + 1, ?_, skips_member hbefore hkey hgap hspace hafter hskips⟩
    simp only [Piece.allowance, List.length_cons, List.length_append] at hsteps ⊢
    omega
  | last _ ih =>
    obtain ⟨steps, hsteps, hskips⟩ := ih
    refine ⟨steps + 1, ?_, skips_last hskips⟩
    simp only [Piece.allowance] at hsteps ⊢
    omega
  | more _ _ ih ihmore =>
    obtain ⟨steps, hsteps, hskips⟩ := ih
    obtain ⟨others, hothers, hmore⟩ := ihmore
    refine ⟨others + 1 + steps, ?_, skips_more hskips hmore⟩
    simp only [Piece.allowance, List.length_cons, List.length_append] at hsteps hothers ⊢
    omega

/-- A value of a text is passed over if the text is no longer than the limit. -/
theorem skipValue_append {text : List Char} (h : WellFormed .value text) {limit : Nat}
    (hlimit : text.length ≤ limit) {rest : List Char} (hrest : EndsNumeral rest) :
    skipValue limit (text ++ rest) = .ok rest := by
  obtain ⟨steps, hsteps, hskips⟩ := h.exists_skips
  simp only [Piece.allowance] at hsteps
  obtain ⟨fuel, hfuel⟩ : ∃ fuel, 2 * limit + 2 = fuel + 1 + steps :=
    ⟨2 * limit + 1 - steps, by omega⟩
  rw [skipValue, hfuel, hskips _ _ _ hrest]
  rfl

theorem skipValue_dropSpace (limit : Nat) (text : List Char) :
    skipValue limit (dropSpace text) = skipValue limit text :=
  skipWithin_dropSpace (.inr rfl)

end Json

end MixedInteger
