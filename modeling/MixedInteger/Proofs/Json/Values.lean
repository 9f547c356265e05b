import MixedInteger.Json.Typed
import MixedInteger.Proofs.Json.Numerals

/-!
# Texts of values

A text spells a value for a reader if the reader takes all of it and returns the value, whatever
follows, as long as that does not continue a number.  Spellings are put together as JSON puts values
together: white space may stand in front, `null` spells a missing value, and the entries of an array
are spelled one by one, with commas between them and white space before each comma and before the
closing bracket.
-/

namespace MixedInteger

namespace Json

variable {β : Type} {read : Reader β}

/-! ## White space -/

/-- A text of white space. -/
def Blank (text : List Char) : Prop :=
  ∀ c ∈ text, isSpace c = true

theorem blank_nil : Blank [] := nofun

theorem blank_space : Blank [' '] :=
  List.forall_mem_singleton.2 rfl

theorem dropSpace_append {space : List Char} (h : Blank space) (text : List Char) :
    dropSpace (space ++ text) = dropSpace text :=
  List.dropWhile_append_of_pos h

theorem dropSpace_cons {c : Char} (h : isSpace c = false) (rest : List Char) :
    dropSpace (c :: rest) = c :: rest :=
  List.dropWhile_cons_of_neg (Bool.eq_false_iff.1 h)

theorem dropSpace_space {c : Char} (h : isSpace c = true) (rest : List Char) :
    dropSpace (c :: rest) = dropSpace rest :=
  List.dropWhile_cons_of_pos h

@[simp]
theorem dropSpace_dropSpace (text : List Char) : dropSpace (dropSpace text) = dropSpace text := by
  induction text with
  | nil => rfl
  | cons c rest ih =>
    cases hc : isSpace c with
    | true => rw [dropSpace_space hc, ih]
    | false => rw [dropSpace_cons hc, dropSpace_cons hc]

/-! ## Spellings -/

/-- A reader takes all of a text as the spelling of a value. -/
def Reads (read : Reader β) (text : List Char) (value : β) : Prop :=
  ∀ rest, EndsNumeral rest → read (text ++ rest) = .ok (value, rest)

/-- A reader of values passes over white space in front and needs more than the end of the text or
of an array. -/
structure ReadsValues (read : Reader β) : Prop where
  trims : ∀ text, read (dropSpace text) = read text
  nil : ∀ result, read [] ≠ .ok result
  closing : ∀ rest result, read (']' :: rest) ≠ .ok result

/-- A reader to which `null` says nothing. -/
def RefusesNull (read : Reader β) : Prop :=
  ∀ rest result, read ('n' :: rest) ≠ .ok result

theorem Reads.blank {text space : List Char} {value : β} (h : Reads read text value)
    (hread : ReadsValues read) (hspace : Blank space) : Reads read (space ++ text) value := by
  intro rest hrest
  rw [← hread.trims, List.append_assoc, dropSpace_append hspace, hread.trims]
  exact h rest hrest

/-- What is left of a spelling without white space in front begins with a character. -/
theorem Reads.exists_cons {text rest : List Char} {value : β} (h : Reads read text value)
    (hread : ReadsValues read) (hrest : EndsNumeral rest) :
    ∃ c more, dropSpace (text ++ rest) = c :: more ∧ c ≠ ']' ∧
      read (c :: more) = .ok (value, rest) := by
  have hvalue := h rest hrest
  rw [← hread.trims] at hvalue
  cases hcons : dropSpace (text ++ rest) with
  | nil =>
    rw [hcons] at hvalue
    exact absurd hvalue (hread.nil _)
  | cons c more =>
    rw [hcons] at hvalue
    refine ⟨c, more, rfl, ?_, hvalue⟩
    rintro rfl
    exact hread.closing _ _ hvalue

theorem bind_error_ne_ok {γ : Type} {x : Except Problem γ} {problem : Problem} {result : β} :
    (x >>= fun _ ↦ .error problem) ≠ .ok result := by
  intro h
  obtain ⟨value, -, herror⟩ := bind_eq_ok_iff.1 h
  cases herror

theorem refuse_ne_ok (text : List Char) (result : β) : refuse text ≠ .ok result := by
  unfold refuse
  split
  · nofun
  · nofun
  · nofun
  · exact bind_error_ne_ok
  · exact bind_error_ne_ok
  · exact bind_error_ne_ok
  · exact bind_error_ne_ok
  · split_ifs
    · exact bind_error_ne_ok
    · nofun

/-! ## Numbers -/

theorem not_space_of_startsNumeral {c : Char} (h : startsNumeral c = true) : isSpace c = false := by
  refine Bool.eq_false_iff.2 fun hspace ↦ ?_
  simp only [isSpace, Bool.or_eq_true, beq_iff_eq] at hspace
  rcases hspace with ((rfl | rfl) | rfl) | rfl <;> exact absurd h (by decide)

theorem readNumber_readsValues : ReadsValues readNumber where
  trims text := by rw [readNumber, dropSpace_dropSpace, readNumber]
  nil := nofun
  closing rest result := refuse_ne_ok (']' :: rest) result

theorem readNumber_refusesNull : RefusesNull readNumber :=
  fun rest result ↦ refuse_ne_ok ('n' :: rest) result

/-- A number that is read off a text of its own is spelled by it. -/
theorem reads_number {text : List Char} {x : Float} (h : number text = .ok (x, [])) :
    Reads readNumber text x := by
  intro rest hrest
  obtain ⟨⟨numeral, after⟩, hnumeral, -⟩ := bind_eq_ok_iff.1 h
  obtain ⟨c, more, rfl, hc⟩ := exists_startsNumeral hnumeral
  have happend := number_extends.append h rest fun _ ↦ hrest
  rw [readNumber, List.cons_append, dropSpace_cons (not_space_of_startsNumeral hc)]
  exact (if_pos hc).trans happend

/-! ## Missing values -/

theorem readNullable_readsValues (hread : ReadsValues read) : ReadsValues (readNullable read) where
  trims text := by rw [readNullable, dropSpace_dropSpace, readNullable]
  nil result h := by
    obtain ⟨value, hvalue, -⟩ := bind_eq_ok_iff.1 h
    exact hread.nil _ hvalue
  closing rest result h := by
    obtain ⟨value, hvalue, -⟩ := bind_eq_ok_iff.1 h
    exact hread.closing _ _ hvalue

theorem reads_null : Reads (readNullable read) ['n', 'u', 'l', 'l'] none :=
  fun _ _ ↦ rfl

theorem reads_some {text : List Char} {value : β} (h : Reads read text value)
    (hread : ReadsValues read) (hnull : RefusesNull read) :
    Reads (readNullable read) text (some value) := by
  intro rest hrest
  obtain ⟨c, more, hcons, -, hvalue⟩ := h.exists_cons hread hrest
  rw [readNullable, hcons]
  split
  · rename_i heq
    cases heq
    exact absurd hvalue (hnull _ _)
  · rw [hvalue]
    rfl

/-! ## Flags -/

theorem readFlag_readsValues : ReadsValues readFlag where
  trims text := by rw [readFlag, dropSpace_dropSpace, readFlag]
  nil := nofun
  closing rest result := refuse_ne_ok (']' :: rest) result

theorem reads_true : Reads readFlag ['t', 'r', 'u', 'e'] true :=
  fun _ _ ↦ rfl

theorem reads_false : Reads readFlag ['f', 'a', 'l', 's', 'e'] false :=
  fun _ _ ↦ rfl

/-! ## Arrays -/

/-- The entries of an array, of which there is one at least, with the closing bracket. -/
inductive Entries (read : Reader β) : List Char → List β → Prop where
  | last {text space : List Char} {value : β} (htext : Reads read text value)
      (hspace : Blank space) : Entries read (text ++ (space ++ [']'])) [value]
  | cons {text space more : List Char} {value : β} {values : List β}
      (htext : Reads read text value) (hspace : Blank space) (hmore : Entries read more values) :
      Entries read (text ++ (space ++ ',' :: more)) (value :: values)

theorem Entries.length_le {text : List Char} {values : List β} (h : Entries read text values) :
    values.length ≤ text.length := by
  induction h with
  | last => simp only [List.length_append, List.length_cons, List.length_nil]; omega
  | cons _ _ _ ih => simp only [List.length_append, List.length_cons]; omega

theorem endsNumeral_of_blank {space rest : List Char} (hspace : Blank space)
    (hrest : EndsNumeral rest) : EndsNumeral (space ++ rest) := by
  cases space with
  | nil => exact hrest
  | cons c space =>
    have hc := hspace c List.mem_cons_self
    simp only [isSpace, Bool.or_eq_true, beq_iff_eq] at hc
    rcases hc with ((rfl | rfl) | rfl) | rfl <;> exact ⟨by decide, by decide, by decide, by decide⟩

theorem readEntries_dropSpace (hread : ReadsValues read) (fuel : Nat) (text : List Char) :
    readEntries read fuel (dropSpace text) = readEntries read fuel text := by
  cases fuel with
  | zero => rfl
  | succ fuel => rw [readEntries, hread.trims, readEntries]

theorem endsNumeral_closing {space : List Char} (hspace : Blank space) (rest : List Char) :
    EndsNumeral (space ++ ']' :: rest) :=
  endsNumeral_of_blank hspace ⟨by decide, by decide, by decide, by decide⟩

theorem endsNumeral_comma {space : List Char} (hspace : Blank space) (rest : List Char) :
    EndsNumeral (space ++ ',' :: rest) :=
  endsNumeral_of_blank hspace ⟨by decide, by decide, by decide, by decide⟩

/-- Entries begin with one of them and not with the closing bracket. -/
theorem Entries.exists_cons (hread : ReadsValues read) {text : List Char} {values : List β}
    (h : Entries read text values) (rest : List Char) :
    ∃ c more, dropSpace (text ++ rest) = c :: more ∧ c ≠ ']' := by
  cases h with
  | @last text space value htext hspace =>
    obtain ⟨c, more, hcons, hc, -⟩ :=
      htext.exists_cons hread (endsNumeral_closing hspace rest)
    rw [List.append_assoc, List.append_assoc]
    exact ⟨c, more, hcons, hc⟩
  | @cons text space more value values htext hspace hmore =>
    obtain ⟨c, after, hcons, hc, -⟩ :=
      htext.exists_cons hread (endsNumeral_comma hspace (more ++ rest))
    rw [List.append_assoc, List.append_assoc]
    exact ⟨c, after, hcons, hc⟩

theorem readEntries_of_entries (hread : ReadsValues read) {text : List Char} {values : List β}
    (h : Entries read text values) {fuel : Nat} (hfuel : values.length ≤ fuel)
    (rest : List Char) : readEntries read fuel (text ++ rest) = .ok (values, rest) := by
  induction h generalizing fuel with
  | @last text space value htext hspace =>
    obtain ⟨fuel, rfl⟩ := Nat.exists_eq_add_of_lt hfuel
    have hvalue := htext _ (endsNumeral_closing hspace rest)
    have hdrop : dropSpace (space ++ ']' :: rest) = ']' :: rest := dropSpace_append hspace _
    rw [List.append_assoc, List.append_assoc, List.singleton_append]
    simp only [readEntries, hvalue, bind, Except.bind, hdrop]
    rfl
  | @cons text space more value values htext hspace hmore ih =>
    obtain ⟨fuel, rfl⟩ := Nat.exists_eq_add_of_lt hfuel
    have hvalue := htext _ (endsNumeral_comma hspace (more ++ rest))
    have hdrop : dropSpace (space ++ ',' :: (more ++ rest)) = ',' :: (more ++ rest) :=
      dropSpace_append hspace _
    obtain ⟨c, after, hcons, hc⟩ := hmore.exists_cons hread rest
    have hentries : readEntries read (values.length + fuel) (c :: after) = .ok (values, rest) := by
      rw [← hcons, readEntries_dropSpace hread]
      exact ih (Nat.le_add_right _ _)
    rw [List.append_assoc, List.append_assoc, List.cons_append]
    simp only [readEntries, hvalue, bind, Except.bind, hdrop]
    rw [hcons]
    split
    · cases ‹c :: after = []›
    · cases ‹c :: after = ']' :: _›
      exact absurd rfl hc
    · rw [hentries]
      rfl

theorem readArray_readsValues (limit : Nat) : ReadsValues (readArray limit read) where
  trims text := by rw [readArray, dropSpace_dropSpace, readArray]
  nil := nofun
  closing rest result := refuse_ne_ok (']' :: rest) result

theorem readArray_refusesNull (limit : Nat) : RefusesNull (readArray limit read) :=
  fun rest result ↦ refuse_ne_ok ('n' :: rest) result

theorem readArray_opening (limit : Nat) (rest : List Char) :
    readArray limit read ('[' :: rest) =
      match dropSpace rest with
      | [] => .error .truncated
      | ']' :: rest => .ok ([], rest)
      | rest => readEntries read limit rest := rfl

theorem reads_array_nil {space : List Char} (hspace : Blank space) (limit : Nat) :
    Reads (readArray limit read) ('[' :: (space ++ [']'])) [] := by
  intro rest _
  have hdrop : dropSpace (space ++ ']' :: rest) = ']' :: rest := dropSpace_append hspace _
  rw [List.cons_append, readArray_opening, List.append_assoc, List.singleton_append, hdrop]
  rfl

theorem reads_array (hread : ReadsValues read) {text : List Char} {values : List β}
    (h : Entries read text values) {limit : Nat} (hlimit : text.length ≤ limit) :
    Reads (readArray limit read) ('[' :: text) values := by
  intro rest _
  obtain ⟨c, more, hcons, hc⟩ := h.exists_cons hread rest
  have hentries : readEntries read limit (c :: more) = .ok (values, rest) := by
    rw [← hcons, readEntries_dropSpace hread]
    exact readEntries_of_entries hread h (Nat.le_trans h.length_le hlimit) rest
  rw [List.cons_append, readArray_opening, hcons]
  split
  · cases ‹c :: more = []›
  · cases ‹c :: more = ']' :: _›
    exact absurd rfl hc
  · exact hentries

end Json

end MixedInteger
