import MixedInteger.Proofs.Json.Nesting
import MixedInteger.Proofs.Json.Spellings
import MixedInteger.Proofs.ModelFile.RoundTrip

/-!
# Spellings of model files

A model file is spelled as an object or as an array.  The members of an object come in any order and
members with other keys may stand among them, as often as one likes; each field occurs once, and an
optional field without a value is left out or `null`.  An array has the values of the fields in
their order, of which those at the end may be left out if they have no value.

All spellings are read as the same file, and so they describe the same model.
-/

namespace MixedInteger

namespace ModelFile

open Json

/-! ## Spellings -/

/-- The spellings of a value of a field. -/
def Field.Spells : (field : Field) → List Char → field.Value → Prop
  | .A => ArrayText (ArrayText NumberText)
  | .b => ArrayText NumberText
  | .c => ArrayText NumberText
  | .lower => NullableText (ArrayText (NullableText NumberText))
  | .upper => NullableText (ArrayText (NullableText NumberText))
  | .integer => NullableText (ArrayText FlagText)

/-- A member in an object that spells a file, and its field unless its key is foreign. -/
inductive MemberText (file : ModelFile) : List Char → Option Field → Prop where
  | known {field : Field} {key gap space text : List Char} (hkey : KeyText key field.key)
      (hgap : Blank gap) (hspace : Blank space) (h : field.Spells text (file.value field)) :
      MemberText file ('"' :: (key ++ '"' :: (gap ++ ':' :: (space ++ text)))) (some field)
  | foreign {key name gap space text : List Char} (hkey : KeyText key name)
      (hname : ∀ field : Field, name ≠ field.key) (hgap : Blank gap) (hspace : Blank space)
      (h : WellFormed .value text) :
      MemberText file ('"' :: (key ++ '"' :: (gap ++ ':' :: (space ++ text)))) none

/-- An entry in an array that spells a file, and its field. -/
def EntryText (file : ModelFile) (text : List Char) (field : Field) : Prop :=
  field.Spells text (file.value field)

/-- Fields leave out nothing that a file has a value for. -/
def Covers (file : ModelFile) (fields : List Field) : Prop :=
  ∀ field, file.writes field = true → field ∈ fields

/-- A text spells a file. -/
inductive Spelling (file : ModelFile) : List Char → Prop where
  | object {before text after : List Char} {members : List (Option Field)}
      (hbefore : Blank before) (h : Separated file.MemberText text members)
      (hnodup : members.reduceOption.Nodup) (hcovers : file.Covers members.reduceOption)
      (hafter : Blank after) : Spelling file (before ++ '{' :: (text ++ ['}']) ++ after)
  | array {before text after : List Char} {fields : List Field}
      (hbefore : Blank before) (h : Separated file.EntryText text fields)
      (hinitial : fields <+: Field.all) (hcovers : file.Covers fields)
      (hafter : Blank after) : Spelling file (before ++ '[' :: (text ++ [']']) ++ after)

/-! ## Values of fields -/

theorem Field.reader_readsValues (limit : Nat) (field : Field) :
    ReadsValues (field.reader limit) := by
  cases field with
  | A => exact readArray_readsValues limit
  | b => exact readArray_readsValues limit
  | c => exact readArray_readsValues limit
  | lower => exact readNullable_readsValues (readArray_readsValues limit)
  | upper => exact readNullable_readsValues (readArray_readsValues limit)
  | integer => exact readNullable_readsValues (readArray_readsValues limit)

theorem Field.understands (limit : Nat) (field : Field) :
    Understands limit (field.reader limit) field.Spells := by
  have hnumbers := understands_array (understands_number limit) readNumber_readsValues
  have hbounds := understands_nullable
    (understands_array
      (understands_nullable (understands_number limit) readNumber_readsValues
        readNumber_refusesNull)
      (readNullable_readsValues readNumber_readsValues))
    (readArray_readsValues limit) (readArray_refusesNull limit)
  cases field with
  | A => exact understands_array hnumbers (readArray_readsValues limit)
  | b => exact hnumbers
  | c => exact hnumbers
  | lower => exact hbounds
  | upper => exact hbounds
  | integer =>
    exact understands_nullable (understands_array (understands_flag limit) readFlag_readsValues)
      (readArray_readsValues limit) (readArray_refusesNull limit)

/-! ## Drafts -/

/-- What a draft has for a field. -/
def Draft.get? (draft : Draft) : (field : Field) → Option field.Value
  | .A => draft.A
  | .b => draft.b
  | .c => draft.c
  | .lower => draft.lower
  | .upper => draft.upper
  | .integer => draft.integer

theorem Draft.get?_put_self (draft : Draft) (field : Field) (value : field.Value) :
    (draft.put field value).get? field = some value := by
  cases field <;> rfl

theorem Draft.get?_put_of_ne (draft : Draft) {field other : Field} (value : field.Value)
    (h : other ≠ field) : (draft.put field value).get? other = draft.get? other := by
  cases field <;> cases other
  case A.A | b.b | c.c | lower.lower | upper.upper | integer.integer => exact absurd rfl h
  all_goals rfl

/-- A draft has the value of the file for every field that has been filled in. -/
theorem get?_fill (file : ModelFile) (draft : Draft) (fields : List Field) (field : Field) :
    (file.fill draft fields).get? field =
      if field ∈ fields then some (file.value field) else draft.get? field := by
  induction fields generalizing draft with
  | nil => rfl
  | cons first fields ih =>
    change (file.fill (draft.put first (file.value first)) fields).get? field = _
    rw [ih]
    by_cases hfirst : field = first
    · subst hfirst
      rw [Draft.get?_put_self, ite_self, if_pos List.mem_cons_self]
    · rw [Draft.get?_put_of_ne _ _ hfirst]
      simp only [List.mem_cons, hfirst, false_or]

/-- Whether an optional value has been left out or given makes no difference if there is none. -/
theorem join_of_covers {β : Type} {slot : Option (Option β)} {value : Option β} {p : Prop}
    [Decidable p] (hslot : slot = if p then some value else none) (h : value.isSome = true → p) :
    slot.join = value := by
  rw [hslot]
  split_ifs with hp
  · rfl
  · cases value with
    | none => rfl
    | some x => exact absurd (h rfl) hp

/-- Fields that leave out nothing make up the file. -/
theorem finish_fill_of_covers {file : ModelFile} {fields : List Field} (h : file.Covers fields) :
    (file.fill {} fields).finish = .ok file := by
  have hrequired : ∀ field, file.writes field = true →
      (file.fill {} fields).get? field = some (file.value field) :=
    fun field hfield ↦ (get?_fill file {} fields field).trans (if_pos (h field hfield))
  have hA : (file.fill {} fields).A = some file.A := hrequired .A rfl
  have hb : (file.fill {} fields).b = some file.b := hrequired .b rfl
  have hc : (file.fill {} fields).c = some file.c := hrequired .c rfl
  have hlower : (file.fill {} fields).lower.join = file.lower :=
    join_of_covers (get?_fill file {} fields .lower) (h .lower)
  have hupper : (file.fill {} fields).upper.join = file.upper :=
    join_of_covers (get?_fill file {} fields .upper) (h .upper)
  have hinteger : (file.fill {} fields).integer.join = file.integer :=
    join_of_covers (get?_fill file {} fields .integer) (h .integer)
  rw [Draft.finish, hA, hb, hc, hlower, hupper, hinteger]

/-! ## Objects -/

theorem ofKey?_foreign {name : List Char} (h : ∀ field : Field, name ≠ field.key) :
    Field.ofKey? name = none := by
  rw [Field.ofKey?, List.find?_eq_none]
  intro field _ hkey
  exact h field (eq_of_beq hkey).symm

/-- A member fills in its field, or nothing if its key is foreign. -/
theorem reads_memberText {file : ModelFile} {text : List Char} {given : Option Field}
    (h : MemberText file text given) {draft : Draft}
    (hnew : ∀ field ∈ given, draft.has field = false) {limit : Nat}
    (hlimit : text.length ≤ limit) :
    ∃ more, text = '"' :: more ∧
      Reads (readMember limit draft) more (file.fill draft given.toList) := by
  cases h with
  | @known field key gap space text hkey hgap hspace hvalue =>
    simp only [List.length_cons, List.length_append] at hlimit
    have hreads := (field.understands limit hvalue (by omega)).blank
      (field.reader_readsValues limit) hspace
    refine ⟨_, rfl, reads_keyed hkey ?_ hgap ?_⟩
    · rw [Field.ofKey?_key]
      exact hnew field rfl
    · rw [Field.ofKey?_key]
      exact reads_put hreads draft
  | @foreign key name gap space text hkey hname hgap hspace hvalue =>
    simp only [List.length_cons, List.length_append] at hlimit
    have hforeign := ofKey?_foreign hname
    refine ⟨_, rfl, reads_keyed hkey ?_ hgap ?_⟩
    · rw [hforeign]
      rfl
    · rw [hforeign]
      intro rest hrest
      have hskip : skipValue limit (space ++ text ++ rest) = .ok rest := by
        rw [← skipValue_dropSpace, List.append_assoc, dropSpace_append hspace, skipValue_dropSpace]
        exact skipValue_append hvalue (by omega) hrest
      rw [readKeyed, hskip]
      rfl

theorem fill_append (file : ModelFile) (draft : Draft) (fields others : List Field) :
    file.fill draft (fields ++ others) = file.fill (file.fill draft fields) others :=
  List.foldl_append

/-- Fields that have not been read yet are not read by a member with another field either. -/
theorem has_fill_toList {file : ModelFile} {draft : Draft} {given : Option Field} {other : Field}
    (h : draft.has other = false) (hne : ∀ field ∈ given, field ≠ other) :
    (file.fill draft given.toList).has other = false := by
  cases given with
  | none => exact h
  | some field =>
    change (draft.put field (file.value field)).has other = false
    rw [Draft.has_put, h, Bool.or_false]
    exact beq_false_of_ne (hne field rfl)

theorem reduceOption_cons (given : Option Field) (members : List (Option Field)) :
    (given :: members).reduceOption = given.toList ++ members.reduceOption := by
  cases given <;> rfl

/-- Members in a row are the members of an object, behind the quote of the first key. -/
theorem members_of_separated {file : ModelFile} {limit : Nat} {text : List Char}
    {members : List (Option Field)} (h : Separated file.MemberText text members) {draft : Draft}
    (hnodup : members.reduceOption.Nodup)
    (hnew : ∀ field ∈ members.reduceOption, draft.has field = false)
    (hlimit : text.length ≤ limit) :
    ∃ gap more, text ++ ['}'] = gap ++ '"' :: more ∧ Blank gap ∧
      Members limit draft more (file.fill draft members.reduceOption) := by
  -- every member is read into the draft that the ones before it have left
  induction h generalizing draft with
  | @last before text after given hbefore hmember hafter =>
    simp only [List.length_append] at hlimit
    rw [reduceOption_cons, List.reduceOption_nil, List.append_nil] at hnew ⊢
    have hlength : text.length ≤ limit := by omega
    obtain ⟨more, rfl, hreads⟩ := reads_memberText hmember
      (fun field hfield ↦ hnew field (Option.mem_toList.2 hfield)) hlength
    refine ⟨before, _, ?_, hbefore, .last hreads hafter⟩
    simp only [List.append_assoc, List.cons_append]
  | @more before text after rest given members hbefore hmember hafter _ ih =>
    simp only [List.length_append, List.length_cons] at hlimit
    rw [reduceOption_cons] at hnodup hnew ⊢
    rw [List.forall_mem_append] at hnew
    obtain ⟨-, hlater, hdisjoint⟩ := List.nodup_append.1 hnodup
    have hlength : text.length ≤ limit := by omega
    obtain ⟨more, rfl, hreads⟩ := reads_memberText hmember
      (fun field hfield ↦ hnew.1 field (Option.mem_toList.2 hfield)) hlength
    have hnext : ∀ field ∈ members.reduceOption,
        (file.fill draft given.toList).has field = false := by
      intro field hfield
      apply has_fill_toList (hnew.2 field hfield)
      exact fun first hfirst ↦ hdisjoint first (Option.mem_toList.2 hfirst) field hfield
    obtain ⟨gap, next, htext, hgap, hmembers⟩ := ih hlater hnext (by omega)
    rw [fill_append]
    refine ⟨before, _, ?_, hbefore, .cons hreads hafter hgap hmembers⟩
    simp only [List.append_assoc, List.cons_append, htext]

theorem reads_objectText {file : ModelFile} {text : List Char} {members : List (Option Field)}
    (h : Separated file.MemberText text members) (hnodup : members.reduceOption.Nodup)
    (hcovers : file.Covers members.reduceOption) {limit : Nat} (hlimit : text.length ≤ limit) :
    Reads (readValue limit) ('{' :: (text ++ ['}'])) file := by
  have hnew : ∀ field ∈ members.reduceOption, Draft.has {} field = false :=
    fun field _ ↦ by cases field <;> rfl
  obtain ⟨gap, more, htext, hgap, hmembers⟩ :=
    members_of_separated h hnodup hnew hlimit
  have hlength := congrArg List.length htext
  simp only [List.length_append, List.length_cons, List.length_nil] at hlength
  rw [htext]
  exact reads_object hgap hmembers (finish_fill_of_covers hcovers) (by omega)

/-! ## Arrays -/

theorem readPositions_dropSpace (limit : Nat) (fields : List Field) (draft : Draft)
    (text : List Char) :
    readPositions limit fields draft (dropSpace text) = readPositions limit fields draft text := by
  cases fields with
  | nil => simp only [readPositions, dropSpace_dropSpace]
  | cons field fields => simp only [readPositions, dropSpace_dropSpace]

/-- The fields that are left out at the end of an array need no value. -/
theorem readPositions_closing {draft : Draft} {file : ModelFile} (h : draft.finish = .ok file)
    (limit : Nat) (fields : List Field) {space : List Char} (hspace : Blank space)
    (rest : List Char) :
    readPositions limit fields draft (space ++ ']' :: rest) = .ok (file, rest) := by
  rw [← readPositions_dropSpace, dropSpace_append hspace, readPositions_dropSpace]
  cases fields with
  | nil =>
    change (draft.finish >>= fun file ↦ pure (file, rest)) = _
    rw [h]
    rfl
  | cons field fields =>
    change (draft.finish >>= fun file ↦ pure (file, rest)) = _
    rw [h]
    rfl

theorem readPositions_comma (limit : Nat) (field : Field) (fields : List Field) (draft : Draft)
    (text : List Char) :
    readPositions limit (field :: fields) draft (',' :: text) =
      match dropSpace text with
      | [] => .error .truncated
      | ']' :: _ => .error .malformed
      | rest => draft.read limit field rest >>= fun read ↦
          readPositions limit fields read.1 read.2 := rfl

/-- A field is read at the first character behind the comma, unless it closes the array. -/
theorem readPositions_cons {limit : Nat} {text : List Char} {c : Char} {more : List Char}
    (hcons : dropSpace text = c :: more) (hc : c ≠ ']') (field : Field) (fields : List Field)
    (draft : Draft) :
    readPositions limit (field :: fields) draft (',' :: text) =
      draft.read limit field (c :: more) >>= fun read ↦
        readPositions limit fields read.1 read.2 := by
  rw [readPositions_comma, hcons]
  split
  · cases ‹c :: more = []›
  · cases ‹c :: more = ']' :: _›
    exact absurd rfl hc
  · rfl

theorem readPositions_reads {limit : Nat} {field : Field} {text rest : List Char}
    {value : field.Value} (h : Reads (field.reader limit) text value) (hrest : EndsNumeral rest)
    (fields : List Field) (draft : Draft) :
    readPositions limit (field :: fields) draft (',' :: (text ++ rest)) =
      readPositions limit fields (draft.put field value) rest := by
  obtain ⟨c, more, hcons, hc, hvalue⟩ := h.exists_cons (field.reader_readsValues limit) hrest
  rw [readPositions_cons hcons hc, Draft.read_eq, hvalue]
  rfl

/-- Entries in a row fill in the first of the fields that are still to come. -/
theorem readPositions_of_separated {file : ModelFile} {limit : Nat} {text : List Char}
    {fields : List Field} (h : Separated file.EntryText text fields) {all : List Field}
    (hinitial : fields <+: all) {draft : Draft} (hfile : (file.fill draft fields).finish = .ok file)
    (hlimit : text.length ≤ limit) (rest : List Char) :
    readPositions limit all draft (',' :: (text ++ ']' :: rest)) = .ok (file, rest) := by
  induction h generalizing all draft with
  | @last before text after field hbefore hentry hafter =>
    simp only [List.length_append] at hlimit
    obtain ⟨others, rfl⟩ := hinitial
    have hreads := (field.understands limit hentry (by omega)).blank
      (field.reader_readsValues limit) hbefore
    have hnext := readPositions_reads hreads (endsNumeral_closing hafter rest) others draft
    simp only [List.append_assoc, List.cons_append, List.nil_append] at hnext ⊢
    rw [hnext]
    exact readPositions_closing hfile limit others hafter rest
  | @more before text after following field fields hbefore hentry hafter _ ih =>
    simp only [List.length_append, List.length_cons] at hlimit
    obtain ⟨others, rfl⟩ := hinitial
    have hreads := (field.understands limit hentry (by omega)).blank
      (field.reader_readsValues limit) hbefore
    have hnext := readPositions_reads hreads
      (endsNumeral_comma hafter (following ++ ']' :: rest)) (fields ++ others) draft
    simp only [List.append_assoc, List.cons_append] at hnext ⊢
    rw [hnext, ← readPositions_dropSpace, dropSpace_append hafter, readPositions_dropSpace]
    exact ih (List.prefix_append _ _) hfile (by omega)

/-- The first entry of an array is read like any other. -/
theorem readPositional_eq {limit : Nat} {text : List Char} {c : Char} {more : List Char}
    (hcons : dropSpace text = c :: more) (hc : c ≠ ']') :
    readPositional limit text = readPositions limit Field.all {} (',' :: text) := by
  rw [Field.all, readPositions_cons hcons hc, readPositional, hcons]
  split
  · cases ‹c :: more = []›
  · cases ‹c :: more = ']' :: _›
    exact absurd rfl hc
  · rfl

/-- Entries in a row begin with a value. -/
theorem exists_cons_of_separated {file : ModelFile} {text : List Char} {fields : List Field}
    (h : Separated file.EntryText text fields) (rest : List Char) :
    ∃ c more, dropSpace (text ++ ']' :: rest) = c :: more ∧ c ≠ ']' := by
  cases h with
  | @last before text after field hbefore hentry hafter =>
    have hreads := (field.understands text.length hentry le_rfl).exists_cons
      (field.reader_readsValues _) (endsNumeral_closing hafter rest)
    obtain ⟨c, more, hcons, hc, -⟩ := hreads
    simp only [List.append_assoc, dropSpace_append hbefore]
    exact ⟨c, more, hcons, hc⟩
  | @more before text after following field fields hbefore hentry hafter =>
    have hreads := (field.understands text.length hentry le_rfl).exists_cons
      (field.reader_readsValues _) (endsNumeral_comma hafter (following ++ ']' :: rest))
    obtain ⟨c, more, hcons, hc, -⟩ := hreads
    simp only [List.append_assoc, List.cons_append, dropSpace_append hbefore]
    exact ⟨c, more, hcons, hc⟩

theorem reads_arrayText {file : ModelFile} {text : List Char} {fields : List Field}
    (h : Separated file.EntryText text fields) (hinitial : fields <+: Field.all)
    (hcovers : file.Covers fields) {limit : Nat} (hlimit : text.length ≤ limit) :
    Reads (readValue limit) ('[' :: (text ++ [']'])) file := by
  intro rest _
  obtain ⟨c, more, hcons, hc⟩ := exists_cons_of_separated h rest
  rw [List.cons_append, List.append_assoc]
  calc
    _ = readPositional limit (text ++ ']' :: rest) := rfl
    _ = readPositions limit Field.all {} (',' :: (text ++ ']' :: rest)) :=
      readPositional_eq hcons hc
    _ = .ok (file, rest) :=
      readPositions_of_separated h hinitial (finish_fill_of_covers hcovers) hlimit rest

/-! ## Files -/

theorem readValue_readsValues (limit : Nat) : ReadsValues (readValue limit) where
  trims text := by rw [readValue, dropSpace_dropSpace, readValue]
  nil := nofun
  closing rest result := refuse_ne_ok (']' :: rest) result

/-- What spells a file is read as the file. -/
theorem parse_of_spelling {file : ModelFile} {text : String} (h : file.Spelling text.toList) :
    parse text = .ok file := by
  have htext : String.ofList text.toList = text := String.ofList_toList
  rw [← htext]
  generalize text.toList = chars at h ⊢
  have hread := readValue_readsValues
  cases h with
  | @object before text after members hbefore hmembers hnodup hcovers hafter =>
    have hlimit : text.length ≤ (before ++ '{' :: (text ++ ['}']) ++ after).length := by
      simp only [List.length_append, List.length_cons]
      omega
    have hvalue := reads_objectText hmembers hnodup hcovers hlimit
    exact parse_of_reads (hvalue.blank (hread _) hbefore) hafter
  | @array before text after fields hbefore hentries hinitial hcovers hafter =>
    have hlimit : text.length ≤ (before ++ '[' :: (text ++ [']']) ++ after).length := by
      simp only [List.length_append, List.length_cons]
      omega
    have hvalue := reads_arrayText hentries hinitial hcovers hlimit
    exact parse_of_reads (hvalue.blank (hread _) hbefore) hafter

/-- All spellings of a file describe one model, which is that of the file: the order of keys, keys
that belong to no field, white space, the way in which a missing value is spelled, and whether
fields are found by their keys or by their positions make no difference. -/
theorem spellings_describe (file : ModelFile) (text other : String)
    (h : file.Spelling text.toList) (hother : file.Spelling other.toList) :
    (parse text).map toModel = .ok file.toModel ∧
      (parse other).map toModel = (parse text).map toModel := by
  rw [parse_of_spelling h, parse_of_spelling hother]
  exact ⟨rfl, rfl⟩

/-! ## An example -/

/-- A file without lower bounds and flags, but with an upper bound. -/
def capped : ModelFile where
  A := [[1]]
  b := [2]
  c := [-0.5]
  lower := none
  upper := some [some 1]
  integer := none

/-- The capped file as an object, with an escaped key and a foreign key that occurs twice. -/
def cappedObject : String :=
  "\x7b \"n\": [\x7b\"k\": \"\\ud800\"\x7d, []], \"\\u0062\":[20e-1], \"xINT\": null," ++
    "\"c\":[-0.5],\"xUB\":[ 1],\"n\":1e999,\"A\":[[1]]\x7d"

/-- The capped file as an array. -/
def cappedArray : String :=
  "[[[1.0]], [2], [-5E-1], null, [1]] "

theorem covers_capped {fields : List Field} (hA : .A ∈ fields) (hb : .b ∈ fields)
    (hc : .c ∈ fields) (hupper : .upper ∈ fields) : capped.Covers fields := by
  intro field hfield
  cases field with
  | A => exact hA
  | b => exact hb
  | c => exact hc
  | lower => cases hfield
  | upper => exact hupper
  | integer => cases hfield

theorem numberText_one : NumberText ['1'] 1 := by
  have hwhole : WholeText ['1'] := .digits (by decide) (digits_of_all rfl)
  exact ⟨_, .positive (.mk hwhole .none .none), by with_unfolding_all decide⟩

theorem spelling_cappedObject : capped.Spelling cappedObject.toList := by
  have hone : Separated NumberText _ [1] := .last blank_nil numberText_one blank_nil
  have htwo : NumberText _ 2 :=
    have hwhole : WholeText ['2', '0'] := .digits (by decide) (digits_of_all rfl)
    have hexponent : ExponentText ['e', '-', '1'] _ := .minus (.inl rfl) (digits_of_all rfl)
    ⟨_, .positive (.mk hwhole .none hexponent), by with_unfolding_all decide⟩
  have hhalf : NumberText _ (-0.5) :=
    have hfraction : FractionText ['.', '5'] _ := .some (digits_of_all rfl)
    ⟨_, .negative (.mk .zero hfraction .none), by with_unfolding_all decide⟩
  have hlarge : WellFormed .value ['1', 'e', '9', '9', '9'] :=
    have hwhole : WholeText ['1'] := .digits (by decide) (digits_of_all rfl)
    have hexponent : ExponentText ['e', '9', '9', '9'] _ :=
      .unsigned (.inl rfl) (digits_of_all rfl)
    .number (.positive (.mk hwhole .none hexponent))
  have hlone : WellFormed .value ('"' :: (['\\', 'u', 'd', '8', '0', '0'] ++ ['"'])) :=
    .string (.unit rfl .nil)
  have hnested : WellFormed .value _ :=
    .group (.more
      (.entry blank_nil
        (.group (.last (.member blank_nil (.plain (c := 'k') rfl .nil) blank_nil blank_space hlone
          blank_nil))) blank_nil)
      (.last (.entry blank_space (.empty .array blank_nil) blank_nil)))
  have hkey : KeyText ['n'] ['n'] := .plain rfl .nil
  have hforeign : ∀ field : Field, ['n'] ≠ field.key := by
    intro field
    cases field <;> decide
  have hb : KeyText ['\\', 'u', '0', '0', '6', '2'] Field.b.key := .unit rfl rfl rfl .nil
  have hnote : capped.MemberText _ none :=
    .foreign hkey hforeign blank_nil blank_space hnested
  have hrightSide : capped.MemberText _ (some .b) :=
    .known hb blank_nil blank_nil (.some (.last blank_nil htwo blank_nil))
  have hflags : capped.MemberText _ (some .integer) :=
    .known Field.integer.keyText blank_nil blank_space .null
  have hcosts : capped.MemberText _ (some .c) :=
    .known Field.c.keyText blank_nil blank_nil (.some (.last blank_nil hhalf blank_nil))
  have hupper : capped.MemberText _ (some .upper) :=
    .known Field.upper.keyText blank_nil blank_nil
      (.some (.some (.last blank_space (.some numberText_one) blank_nil)))
  have hagain : capped.MemberText _ none :=
    .foreign hkey hforeign blank_nil blank_nil hlarge
  have hrows : capped.MemberText _ (some .A) :=
    .known Field.A.keyText blank_nil blank_nil (.some (.last blank_nil (.some hone) blank_nil))
  have hmembers : Separated capped.MemberText _ _ :=
    .more blank_space hnote blank_nil <|
    .more blank_space hrightSide blank_nil <|
    .more blank_space hflags blank_nil <|
    .more blank_nil hcosts blank_nil <|
    .more blank_nil hupper blank_nil <|
    .more blank_nil hagain blank_nil <|
    .last blank_nil hrows blank_nil
  have hspelling := Spelling.object blank_nil hmembers (by decide)
    (covers_capped (by decide) (by decide) (by decide) (by decide)) blank_nil
  convert hspelling using 1
  decide

theorem spelling_cappedArray : capped.Spelling cappedArray.toList := by
  have hone : NumberText ['1', '.', '0'] 1 :=
    have hwhole : WholeText ['1'] := .digits (by decide) (digits_of_all rfl)
    have hfraction : FractionText ['.', '0'] _ := .some (digits_of_all rfl)
    ⟨_, .positive (.mk hwhole hfraction .none), by with_unfolding_all decide⟩
  have htwo : NumberText ['2'] 2 :=
    have hwhole : WholeText ['2'] := .digits (by decide) (digits_of_all rfl)
    ⟨_, .positive (.mk hwhole .none .none), by with_unfolding_all decide⟩
  have hhalf : NumberText _ (-0.5) :=
    have hwhole : WholeText ['5'] := .digits (by decide) (digits_of_all rfl)
    have hexponent : ExponentText ['E', '-', '1'] _ := .minus (.inr rfl) (digits_of_all rfl)
    ⟨_, .negative (.mk hwhole .none hexponent), by with_unfolding_all decide⟩
  have hrows : capped.EntryText _ .A :=
    .some (.last blank_nil (.some (.last blank_nil hone blank_nil)) blank_nil)
  have hrightSide : capped.EntryText _ .b := .some (.last blank_nil htwo blank_nil)
  have hcosts : capped.EntryText _ .c := .some (.last blank_nil hhalf blank_nil)
  have hlower : capped.EntryText _ .lower := .null
  have hupper : capped.EntryText _ .upper :=
    .some (.some (.last blank_nil (.some numberText_one) blank_nil))
  have hentries : Separated capped.EntryText _ _ :=
    .more blank_nil hrows blank_nil <|
    .more blank_space hrightSide blank_nil <|
    .more blank_space hcosts blank_nil <|
    .more blank_space hlower blank_nil <|
    .last blank_space hupper blank_nil
  have hspelling := Spelling.array blank_nil hentries ⟨[.integer], rfl⟩
    (covers_capped (by decide) (by decide) (by decide) (by decide)) blank_space
  convert hspelling using 1
  decide

theorem capped_described :
    capped.Spelling cappedObject.toList ∧ capped.Spelling cappedArray.toList ∧
      (parse cappedObject).map toModel = .ok capped.toModel ∧
      (parse cappedArray).map toModel = (parse cappedObject).map toModel :=
  ⟨spelling_cappedObject, spelling_cappedArray,
    spellings_describe capped cappedObject cappedArray spelling_cappedObject spelling_cappedArray⟩

end ModelFile

end MixedInteger
