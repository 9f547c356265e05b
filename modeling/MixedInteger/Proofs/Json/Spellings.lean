import MixedInteger.Proofs.Json.Tokens

/-!
# Spellings of typed values

A value has as many spellings as there are numerals for its numbers and ways to put white space
around the entries of its arrays.  Every reader takes every spelling of a value as the value, as far
as the text is no longer than its limit.
-/

namespace MixedInteger

namespace Json

variable {β : Type}

/-! ## Spellings -/

/-- Items in a row, separated by commas and with white space around them. -/
inductive Separated (spells : List Char → β → Prop) : List Char → List β → Prop where
  | last {before text after : List Char} {value : β} (hbefore : Blank before)
      (h : spells text value) (hafter : Blank after) :
      Separated spells (before ++ (text ++ after)) [value]
  | more {before text after rest : List Char} {value : β} {values : List β}
      (hbefore : Blank before) (h : spells text value) (hafter : Blank after)
      (hrest : Separated spells rest values) :
      Separated spells (before ++ (text ++ (after ++ ',' :: rest))) (value :: values)

/-- The spellings of an array of values. -/
inductive ArrayText (spells : List Char → β → Prop) : List Char → List β → Prop where
  | empty {space : List Char} (hspace : Blank space) :
      ArrayText spells ('[' :: (space ++ [']'])) []
  | some {text : List Char} {values : List β} (h : Separated spells text values) :
      ArrayText spells ('[' :: (text ++ [']'])) values

/-- The spellings of a value that may be missing. -/
inductive NullableText (spells : List Char → β → Prop) : List Char → Option β → Prop where
  | null : NullableText spells ['n', 'u', 'l', 'l'] none
  | some {text : List Char} {value : β} (h : spells text value) :
      NullableText spells text (some value)

/-- The spellings of a flag. -/
inductive FlagText : List Char → Bool → Prop where
  | true : FlagText ['t', 'r', 'u', 'e'] true
  | false : FlagText ['f', 'a', 'l', 's', 'e'] false

/-! ## Reading -/

/-- A reader takes the spellings up to a length as what they spell. -/
def Understands (limit : Nat) (read : Reader β) (spells : List Char → β → Prop) : Prop :=
  ∀ ⦃text value⦄, spells text value → text.length ≤ limit → Reads read text value

theorem understands_number (limit : Nat) : Understands limit readNumber NumberText :=
  fun _ _ h _ ↦ reads_numberText h

theorem understands_flag (limit : Nat) : Understands limit readFlag FlagText := by
  rintro text flag (_ | _) -
  · exact reads_true
  · exact reads_false

variable {limit : Nat} {read : Reader β} {spells : List Char → β → Prop}

theorem understands_nullable (h : Understands limit read spells) (hread : ReadsValues read)
    (hnull : RefusesNull read) : Understands limit (readNullable read) (NullableText spells) := by
  rintro text value (_ | hvalue) hlimit
  · exact reads_null
  · exact reads_some (h hvalue hlimit) hread hnull

theorem entries_of_separated (h : Understands limit read spells) (hread : ReadsValues read)
    {text : List Char} {values : List β} (hvalues : Separated spells text values)
    (hlimit : text.length ≤ limit) : Entries read (text ++ [']']) values := by
  induction hvalues with
  | last hbefore hvalue hafter =>
    simp only [List.length_append] at hlimit
    have hreads := (h hvalue (by omega)).blank hread hbefore
    have hentries := Entries.last hreads hafter
    simpa only [List.append_assoc] using hentries
  | more hbefore hvalue hafter _ ih =>
    simp only [List.length_append, List.length_cons] at hlimit
    have hreads := (h hvalue (by omega)).blank hread hbefore
    have hentries := Entries.cons hreads hafter (ih (by omega))
    simpa only [List.append_assoc, List.cons_append] using hentries

theorem understands_array (h : Understands limit read spells) (hread : ReadsValues read) :
    Understands limit (readArray limit read) (ArrayText spells) := by
  rintro text values (⟨hspace⟩ | hvalues) hlimit
  · exact reads_array_nil hspace limit
  · rw [List.length_cons] at hlimit
    have hlength := Nat.le_of_succ_le hlimit
    apply reads_array hread (entries_of_separated h hread hvalues _) hlength
    rw [List.length_append] at hlength
    exact Nat.le_of_add_right_le hlength

end Json

end MixedInteger
