import MixedInteger.ModelFile.Writer
import MixedInteger.Proofs.ModelFile.Numbers

/-!
# Writing and reading model files

What is written of a file is a spelling of it: of each number, as far as the number is read back,
then of each array from the spellings of its entries, of each field that has a value, and of the
object.  Fields without a value are left out, where reading leaves them without a value as well.

Whether a number is read back is a matter of the number alone.  A number is written with the fewest
digits that determine it, but reading rounds more than once, so there are numbers that come back as
one of their neighbours.  No other part of a file depends on its numbers.
-/

namespace MixedInteger

namespace ModelFile

open Json

/-! ## Written arrays -/

theorem commaSeparated_cons {texts : List (List Char)} (hne : texts ≠ []) (text : List Char) :
    commaSeparated (text :: texts) = text ++ ',' :: commaSeparated texts := by
  cases texts with
  | nil => exact absurd rfl hne
  | cons next texts => rfl

theorem length_le_commaSeparated {text : List Char} {texts : List (List Char)}
    (h : text ∈ texts) : text.length ≤ (commaSeparated texts).length := by
  induction texts with
  | nil => exact absurd h List.not_mem_nil
  | cons first texts ih =>
    by_cases hne : texts = []
    · subst hne
      rw [List.mem_singleton.1 h]
      rfl
    · rw [commaSeparated_cons hne, List.length_append, List.length_cons]
      rcases List.mem_cons.1 h with rfl | h
      · exact Nat.le_add_right _ _
      · have hlength := ih h
        omega

section Arrays

variable {β : Type} {read : Reader β} {write : β → List Char} {values : List β}

theorem length_le_arrayOf {value : β} (h : value ∈ values) :
    (write value).length ≤ (arrayOf write values).length := by
  have hlength := length_le_commaSeparated (List.mem_map_of_mem (f := write) h)
  simp only [arrayOf, array, List.length_append, List.length_cons]
  omega

/-- Entries that are written spell the values of the array. -/
theorem entries_commaSeparated (h : ∀ value ∈ values, Reads read (write value) value)
    (hne : values ≠ []) : Entries read (commaSeparated (values.map write) ++ [']']) values := by
  induction values with
  | nil => exact absurd rfl hne
  | cons value values ih =>
    rw [List.forall_mem_cons] at h
    by_cases hmore : values = []
    · subst hmore
      exact .last h.1 blank_nil
    · have hentries := Entries.cons h.1 blank_nil (ih h.2 hmore)
      rw [List.map_cons, commaSeparated_cons (mt List.map_eq_nil_iff.1 hmore), List.append_assoc]
      exact hentries

theorem reads_arrayOf (hread : ReadsValues read)
    (h : ∀ value ∈ values, Reads read (write value) value) {limit : Nat}
    (hlimit : (arrayOf write values).length ≤ limit) :
    Reads (readArray limit read) (arrayOf write values) values := by
  by_cases hne : values = []
  · subst hne
    exact reads_array_nil blank_nil limit
  · refine reads_array hread (entries_commaSeparated h hne) ?_
    rw [arrayOf, array, List.cons_append, List.length_cons] at hlimit
    exact Nat.le_of_succ_le hlimit

theorem reads_writeNullable (hread : ReadsValues read) (hnull : RefusesNull read)
    {value : Option β} (h : ∀ x ∈ value, Reads read (write x) x) :
    Reads (readNullable read) (writeNullable write value) value := by
  cases value with
  | none => exact reads_null
  | some x => exact reads_some (h x rfl) hread hnull

end Arrays

/-! ## Written values -/

/-- A number that is read back from what is written of it. -/
def Rereads (x : Float) : Prop :=
  number (writeNumber x) = .ok (x, [])

instance (x : Float) : Decidable (Rereads x) :=
  inferInstanceAs (Decidable (number (writeNumber x) = .ok (x, [])))

theorem reads_writeFlag (flag : Bool) : Reads readFlag (writeFlag flag) flag := by
  cases flag with
  | false => exact reads_false
  | true => exact reads_true

theorem reads_numbers {values : List Float} (h : ∀ x ∈ values, Rereads x) {limit : Nat}
    (hlimit : (arrayOf writeNumber values).length ≤ limit) :
    Reads (readArray limit readNumber) (arrayOf writeNumber values) values :=
  reads_arrayOf readNumber_readsValues (fun x hx ↦ reads_number (h x hx)) hlimit

/-- Writes bounds, of which some are open, if there are any bounds at all. -/
def writeBounds : Option (List (Option Float)) → List Char :=
  writeNullable (arrayOf (writeNullable writeNumber))

theorem reads_writeBounds {bounds : Option (List (Option Float))}
    (h : ∀ x ∈ (bounds.getD []).reduceOption, Rereads x) {limit : Nat}
    (hlimit : (writeBounds bounds).length ≤ limit) :
    Reads (readNullable (readArray limit (readNullable readNumber))) (writeBounds bounds)
      bounds := by
  apply reads_writeNullable (readArray_readsValues limit) (readArray_refusesNull limit)
  rintro entries rfl
  apply reads_arrayOf (readNullable_readsValues readNumber_readsValues) _ hlimit
  intro entry hentry
  apply reads_writeNullable readNumber_readsValues readNumber_refusesNull
  rintro x rfl
  exact reads_number (h x (List.reduceOption_mem_iff.2 hentry))

/-! ## Written fields -/

/-- Writes the value of a field. -/
def Field.write : (field : Field) → field.Value → List Char
  | .A, rows => arrayOf (arrayOf writeNumber) rows
  | .b, values => arrayOf writeNumber values
  | .c, values => arrayOf writeNumber values
  | .lower, bounds => writeBounds bounds
  | .upper, bounds => writeBounds bounds
  | .integer, flags => writeNullable (arrayOf writeFlag) flags

theorem Field.reads_write {limit : Nat} {field : Field} {value : field.Value}
    (h : ∀ x ∈ field.numbers value, Rereads x) (hlimit : (field.write value).length ≤ limit) :
    Reads (field.reader limit) (field.write value) value := by
  cases field with
  | A =>
    refine reads_arrayOf (readArray_readsValues limit) (fun row hrow ↦ ?_) hlimit
    apply reads_numbers fun x hx ↦ h x (List.mem_flatten_of_mem hrow hx)
    exact (length_le_arrayOf hrow).trans hlimit
  | b => exact reads_numbers h hlimit
  | c => exact reads_numbers h hlimit
  | lower => exact reads_writeBounds h hlimit
  | upper => exact reads_writeBounds h hlimit
  | integer =>
    apply reads_writeNullable (readArray_readsValues limit) (readArray_refusesNull limit)
    rintro flags rfl
    exact reads_arrayOf readFlag_readsValues (fun flag _ ↦ reads_writeFlag flag) hlimit

/-- Whether a file has a value for a field, or the field must be there. -/
def writes (file : ModelFile) : Field → Bool
  | .A => true
  | .b => true
  | .c => true
  | .lower => file.lower.isSome
  | .upper => file.upper.isSome
  | .integer => file.integer.isSome

/-- The fields that are written of a file. -/
def fields (file : ModelFile) : List Field :=
  Field.all.filter file.writes

/-- A member as it is written. -/
def writtenMember (file : ModelFile) (field : Field) : List Char :=
  member field (field.write (file.value field))

theorem written_eq (file : ModelFile) :
    file.written = '{' :: commaSeparated (file.fields.map file.writtenMember) ++ ['}'] := by
  obtain ⟨A, b, c, lower, upper, integer⟩ := file
  cases lower <;> cases upper <;> cases integer <;> rfl

theorem nodup_fields (file : ModelFile) : file.fields.Nodup :=
  List.Nodup.filter _ (by decide)

/-- A draft after some fields of a file. -/
def fill (file : ModelFile) (draft : Draft) (fields : List Field) : Draft :=
  fields.foldl (fun draft field ↦ draft.put field (file.value field)) draft

/-- The fields that are written make up the file. -/
theorem finish_fill (file : ModelFile) : (file.fill {} file.fields).finish = .ok file := by
  obtain ⟨A, b, c, lower, upper, integer⟩ := file
  cases lower <;> cases upper <;> cases integer <;> rfl

/-! ## Written objects -/

theorem members_commaSeparated {file : ModelFile} {limit : Nat} {draft : Draft} {field : Field}
    {fields : List Field} (hnodup : (field :: fields).Nodup)
    (hnew : ∀ other ∈ field :: fields, draft.has other = false)
    (hreads : ∀ other ∈ field :: fields,
      Reads (other.reader limit) (other.write (file.value other)) (file.value other)) :
    ∃ text,
      commaSeparated ((field :: fields).map file.writtenMember) ++ ['}'] = '"' :: text ∧
        Members limit draft text (file.fill draft (field :: fields)) := by
  -- every member is read into the draft that the ones before it have left
  induction fields generalizing draft field with
  | nil =>
    have hmember := reads_member (hnew field List.mem_cons_self) blank_nil
      (hreads field List.mem_cons_self)
    exact ⟨_, rfl, .last hmember blank_nil⟩
  | cons next fields ih =>
    have hmember := reads_member (hnew field List.mem_cons_self) blank_nil
      (hreads field List.mem_cons_self)
    rw [List.nodup_cons] at hnodup
    rw [List.forall_mem_cons] at hnew hreads
    have hlater : ∀ other ∈ next :: fields,
        (draft.put field (file.value field)).has other = false := by
      intro other hother
      have hne : field ≠ other := fun heq ↦ hnodup.1 (heq ▸ hother)
      rw [Draft.has_put, hnew.2 other hother, Bool.or_false]
      exact beq_false_of_ne hne
    obtain ⟨text, htext, hmembers⟩ := ih hnodup.2 hlater hreads.2
    refine ⟨_, ?_, .cons hmember blank_nil blank_nil hmembers⟩
    rw [List.map_cons, commaSeparated_cons (by simp), List.append_assoc, List.cons_append, htext]
    rfl

theorem length_write_le {file : ModelFile} {field : Field} (h : field ∈ file.fields) :
    (field.write (file.value field)).length ≤ file.written.length := by
  have hmember := length_le_commaSeparated (List.mem_map_of_mem (f := file.writtenMember) h)
  rw [written_eq]
  simp only [writtenMember, member, List.length_append, List.length_cons] at hmember ⊢
  omega

theorem reads_written {file : ModelFile} (h : ∀ x ∈ file.numbers, Rereads x) {limit : Nat}
    (hlimit : file.written.length ≤ limit) : Reads (readValue limit) file.written file := by
  have hreads : ∀ field ∈ file.fields,
      Reads (field.reader limit) (field.write (file.value field)) (file.value field) := by
    intro field hfield
    apply Field.reads_write fun x hx ↦ h x (mem_numbers.2 ⟨field, hx⟩)
    exact (length_write_le hfield).trans hlimit
  have hnew : ∀ field ∈ file.fields, Draft.has {} field = false :=
    fun field _ ↦ by cases field <;> rfl
  obtain ⟨text, htext, hmembers⟩ := members_commaSeparated file.nodup_fields hnew hreads
  have hwritten : file.written = '{' :: '"' :: text := by
    rw [written_eq, List.cons_append]
    exact congrArg _ htext
  rw [hwritten] at hlimit ⊢
  apply reads_object blank_nil hmembers file.finish_fill
  exact Nat.le_of_succ_le (Nat.le_of_succ_le hlimit)

/-! ## Files -/

theorem parse_render {file : ModelFile} (h : ∀ x ∈ file.numbers, Rereads x) :
    parse file.render = .ok file := by
  rw [render, ← List.append_nil file.written]
  apply parse_of_reads (reads_written h _) blank_nil
  rw [List.append_nil]

/-- Every finite number in a file is read back. -/
def Faithful (file : ModelFile) : Prop :=
  ∀ x ∈ file.numbers, x.isFinite = true → Rereads x

-- finite numbers need not be read back
example : (31.245270191439438 : Float).isFinite = true ∧ ¬ Rereads 31.245270191439438 := by
  with_unfolding_all decide

/-- Writes the file that is read off a text. -/
def reserialize (text : String) : Except Problem String :=
  (parse text).map render

/-- Where numbers are read back, so are files of any shape, and with them the models that they
describe; so what is written of the file of a text is written again in the same way.  The numbers of
a file that is read are finite in any case. -/
theorem survives_writing :
    (∀ file : ModelFile, file.Finite → file.Faithful →
      parse file.render = .ok file ∧ (parse file.render).map toModel = .ok file.toModel) ∧
    (∀ text file, parse text = .ok file → file.Finite ∧ (file.Faithful →
      ∃ again, reserialize text = .ok again ∧ reserialize again = .ok again)) := by
  have hsurvives : ∀ file : ModelFile, file.Finite → file.Faithful →
      parse file.render = .ok file :=
    fun file hfinite hfaithful ↦ parse_render fun x hx ↦ hfaithful x hx (hfinite x hx)
  constructor
  · intro file hfinite hfaithful
    have hparse := hsurvives file hfinite hfaithful
    refine ⟨hparse, ?_⟩
    rw [hparse]
    rfl
  · intro text file htext
    have hfinite := finite_of_parse htext
    refine ⟨hfinite, fun hfaithful ↦ ⟨file.render, ?_, ?_⟩⟩
    · rw [reserialize, htext]
      rfl
    · rw [reserialize, hsurvives file hfinite hfaithful]
      rfl

/-- Rows of different lengths, an open bound before a given one, no upper bounds and no flags. -/
def ragged : ModelFile where
  A := [[1, -2.5], []]
  b := [0.1]
  c := []
  lower := some [none, some (-0.0)]
  upper := none
  integer := some []

/-- A text of this file in the form of an array. -/
def raggedText : String :=
  "[ [[1, -25e-1], []], [1e-1], [ ], [null, -0], null, [] ]"

theorem ragged_finite : ragged.Finite := by
  unfold Finite
  decide

theorem ragged_faithful : ragged.Faithful := by
  unfold Faithful
  with_unfolding_all decide

theorem ragged_survives :
    (parse ragged.render = .ok ragged ∧ (parse ragged.render).map toModel = .ok ragged.toModel) ∧
      parse raggedText = .ok ragged ∧
      ∃ again, reserialize raggedText = .ok again ∧ reserialize again = .ok again := by
  have hparse : parse raggedText = .ok ragged := by decide +kernel
  exact ⟨survives_writing.1 ragged ragged_finite ragged_faithful, hparse,
    (survives_writing.2 raggedText ragged hparse).2 ragged_faithful⟩

end ModelFile

end MixedInteger
