import Mathlib.Data.List.ReduceOption
import MixedInteger.Proofs.Binary64
import MixedInteger.Proofs.ModelFile.Objects

/-!
# Numbers in model files

A text can spell numbers of any size, but the value of a number that is read is finite, or else the
text is refused.  What readers return of such values, in arrays or where there may be `null`
instead, holds finite numbers only; so does a draft after every field, read by its key or by its
position, and in the end the file.
-/

namespace MixedInteger

namespace Json

variable {β : Type} {read : Reader β} {P : β → Prop}

/-- All values that a reader returns have a property. -/
def Yields (read : Reader β) (P : β → Prop) : Prop :=
  ∀ ⦃text value rest⦄, read text = .ok (value, rest) → P value

theorem number_yields : Yields number fun x ↦ x.isFinite = true := by
  intro text x rest h
  obtain ⟨⟨numeral, after⟩, -, hvalue⟩ := bind_eq_ok_iff.1 h
  dsimp only at hvalue
  split at hvalue
  · rename_i value hsome
    cases hvalue
    obtain ⟨hfinite, heq⟩ := Option.ite_none_right_eq_some.1 hsome
    cases heq
    rwa [Binary64.isFinite_eq] at hfinite
  · cases hvalue

theorem readNumber_yields : Yields readNumber fun x ↦ x.isFinite = true := by
  intro text x rest h
  unfold readNumber at h
  split at h
  · split_ifs at h
    · exact number_yields h
    · exact absurd h (refuse_ne_ok _ _)
  · cases h

theorem readNullable_yields (hread : Yields read P) :
    Yields (readNullable read) fun values ↦ ∀ value ∈ values, P value := by
  intro text values rest h
  unfold readNullable at h
  split at h
  · obtain ⟨_, -, hnone⟩ := bind_eq_ok_iff.1 h
    cases hnone
    nofun
  · obtain ⟨⟨value, after⟩, hvalue, hsome⟩ := bind_eq_ok_iff.1 h
    cases hsome
    rintro _ ⟨⟩
    exact hread hvalue

theorem readEntries_yields (hread : Yields read P) (fuel : Nat) :
    Yields (readEntries read fuel) fun values ↦ ∀ value ∈ values, P value := by
  induction fuel with
  | zero => nofun
  | succ fuel ih =>
    intro text values rest h
    obtain ⟨⟨entry, after⟩, hentry, h⟩ := bind_eq_ok_iff.1 h
    dsimp only at h
    split at h
    · cases h
    · cases h
      rw [List.forall_mem_singleton]
      exact hread hentry
    · split at h
      · cases h
      · cases h
      · obtain ⟨⟨entries, last⟩, hentries, hcons⟩ := bind_eq_ok_iff.1 h
        cases hcons
        exact List.forall_mem_cons.2 ⟨hread hentry, ih hentries⟩
    · cases h

theorem readArray_yields (hread : Yields read P) (limit : Nat) :
    Yields (readArray limit read) fun values ↦ ∀ value ∈ values, P value := by
  intro text values rest h
  unfold readArray at h
  split at h
  · split at h
    · cases h
    · cases h
      nofun
    · exact readEntries_yields hread limit h
  · exact absurd h (refuse_ne_ok _ _)

end Json

namespace ModelFile

open Json

deriving instance DecidableEq for ModelFile

/-! ## Fields -/

/-- The numbers in the value of a field. -/
def Field.numbers : (field : Field) → field.Value → List Float
  | .A, rows => rows.flatten
  | .b, values => values
  | .c, values => values
  | .lower, bounds => (bounds.getD []).reduceOption
  | .upper, bounds => (bounds.getD []).reduceOption
  | .integer, _ => []

/-- What a file has for a field. -/
def value (file : ModelFile) : (field : Field) → field.Value
  | .A => file.A
  | .b => file.b
  | .c => file.c
  | .lower => file.lower
  | .upper => file.upper
  | .integer => file.integer

/-- The numbers in a file. -/
def numbers (file : ModelFile) : List Float :=
  Field.all.flatMap fun field ↦ field.numbers (file.value field)

theorem Field.mem_all (field : Field) : field ∈ Field.all := by
  cases field <;> decide

theorem mem_numbers {file : ModelFile} {x : Float} :
    x ∈ file.numbers ↔ ∃ field : Field, x ∈ field.numbers (file.value field) := by
  rw [numbers, List.mem_flatMap]
  exact exists_congr fun field ↦ and_iff_right field.mem_all

theorem mem_reduceOption_getD {bounds : Option (List (Option Float))} {x : Float} :
    x ∈ (bounds.getD []).reduceOption ↔ ∃ entries ∈ bounds, some x ∈ entries := by
  cases bounds with
  | none => simp
  | some entries => simp [List.reduceOption_mem_iff]

theorem Field.reader_yields (limit : Nat) (field : Field) :
    Yields (field.reader limit) fun value ↦ ∀ x ∈ field.numbers value, x.isFinite = true := by
  intro text value rest h
  have hnumbers := readArray_yields readNumber_yields limit
  have hbounds :=
    readNullable_yields (readArray_yields (readNullable_yields readNumber_yields) limit)
  cases field with
  | A =>
    intro x hx
    obtain ⟨row, hrow, hx⟩ := List.mem_flatten.1 hx
    exact readArray_yields hnumbers limit h row hrow x hx
  | b => exact hnumbers h
  | c => exact hnumbers h
  | lower =>
    intro x hx
    obtain ⟨entries, hentries, hx⟩ := mem_reduceOption_getD.1 hx
    exact hbounds h entries hentries (some x) hx x rfl
  | upper =>
    intro x hx
    obtain ⟨entries, hentries, hx⟩ := mem_reduceOption_getD.1 hx
    exact hbounds h entries hentries (some x) hx x rfl
  | integer => nofun

/-! ## Drafts -/

/-- The numbers in a draft. -/
def Draft.numbers (draft : Draft) : List Float :=
  (draft.A.getD []).flatten ++ (draft.b.getD [] ++ (draft.c.getD [] ++
    ((draft.lower.join.getD []).reduceOption ++ (draft.upper.join.getD []).reduceOption)))

theorem Draft.mem_numbers_put {draft : Draft} {field : Field} {value : field.Value} {x : Float}
    (h : x ∈ (draft.put field value).numbers) : x ∈ field.numbers value ∨ x ∈ draft.numbers := by
  cases field <;>
    simp only [Draft.numbers, List.mem_append] at h ⊢ <;>
    tauto

theorem Draft.numbers_of_finish {draft : Draft} {file : ModelFile}
    (h : draft.finish = .ok file) : file.numbers = draft.numbers := by
  unfold Draft.finish at h
  split at h
  · rename_i hA hb hc
    cases h
    rw [Draft.numbers, hA, hb, hc]
    simp [ModelFile.numbers, Field.all, Field.numbers, ModelFile.value]
  · cases h

/-- All numbers of a draft are finite. -/
def Draft.Finite (draft : Draft) : Prop :=
  ∀ x ∈ draft.numbers, x.isFinite = true

theorem Draft.finite_empty : Draft.Finite {} := nofun

theorem Draft.Finite.read {draft : Draft} (hdraft : draft.Finite) (limit : Nat) (field : Field) :
    Yields (draft.read limit field) Draft.Finite := by
  intro text result rest h
  rw [Draft.read_eq] at h
  obtain ⟨⟨value, after⟩, hvalue, hput⟩ := bind_eq_ok_iff.1 h
  cases hput
  intro x hx
  rcases Draft.mem_numbers_put hx with hx | hx
  · exact field.reader_yields limit hvalue x hx
  · exact hdraft x hx

/-- All numbers of a file are finite. -/
def Finite (file : ModelFile) : Prop :=
  ∀ x ∈ file.numbers, x.isFinite = true

/-- The end of a text makes a draft with finite numbers a file with finite numbers. -/
theorem Draft.Finite.finish {draft : Draft} (hdraft : draft.Finite) {file : ModelFile}
    {rest after : List Char}
    (h : (draft.finish >>= fun file ↦ pure (file, rest)) = .ok (file, after)) : file.Finite := by
  obtain ⟨finished, hfile, hresult⟩ := bind_eq_ok_iff.1 h
  cases hresult
  intro x hx
  rw [Draft.numbers_of_finish hfile] at hx
  exact hdraft x hx

/-! ## Objects -/

theorem Draft.Finite.readMember {draft : Draft} (hdraft : draft.Finite) (limit : Nat) :
    Yields (readMember limit draft) Draft.Finite := by
  intro text result rest h
  obtain ⟨⟨key, after⟩, -, h⟩ := bind_eq_ok_iff.1 h
  dsimp only at h
  split_ifs at h
  · cases h
  · change readColon limit draft (Field.ofKey? key) after = _ at h
    unfold readColon at h
    split at h
    · cases h
    · unfold readKeyed at h
      split at h
      · exact hdraft.read limit _ h
      · obtain ⟨last, -, hresult⟩ := bind_eq_ok_iff.1 h
        cases hresult
        exact hdraft
    · cases h

theorem readMembers_yields (limit fuel : Nat) {draft : Draft} (hdraft : draft.Finite) :
    Yields (readMembers limit fuel draft) Finite := by
  induction fuel generalizing draft with
  | zero => nofun
  | succ fuel ih =>
    intro text file rest h
    rw [readMembers_succ] at h
    obtain ⟨⟨middle, after⟩, hmember, h⟩ := bind_eq_ok_iff.1 h
    have hmiddle : middle.Finite := hdraft.readMember limit hmember
    rw [readAfter] at h
    split at h
    · cases h
    · exact hmiddle.finish h
    · split at h
      · cases h
      · exact ih hmiddle h
      · cases h
    · cases h

/-! ## Arrays -/

theorem readPositions_yields (limit : Nat) (fields : List Field) {draft : Draft}
    (hdraft : draft.Finite) : Yields (readPositions limit fields draft) Finite := by
  induction fields generalizing draft with
  | nil =>
    intro text file rest h
    unfold readPositions at h
    split at h
    · cases h
    · exact hdraft.finish h
    · cases h
  | cons field fields ih =>
    intro text file rest h
    unfold readPositions at h
    split at h
    · cases h
    · exact hdraft.finish h
    · split at h
      · cases h
      · cases h
      · obtain ⟨⟨middle, after⟩, hmiddle, h⟩ := bind_eq_ok_iff.1 h
        exact ih (hdraft.read limit field hmiddle) h
    · cases h

/-! ## Files -/

theorem readValue_yields (limit : Nat) : Yields (readValue limit) Finite := by
  intro text file rest h
  unfold readValue at h
  split at h
  · unfold readObject at h
    split at h
    · cases h
    · cases h
    · exact readMembers_yields limit limit Draft.finite_empty h
    · cases h
  · unfold readPositional at h
    split at h
    · cases h
    · cases h
    · obtain ⟨⟨draft, after⟩, hdraft, h⟩ := bind_eq_ok_iff.1 h
      exact readPositions_yields limit _ (Draft.finite_empty.read limit .A hdraft) h
  · exact absurd h (refuse_ne_ok _ _)

/-- Files that are read hold finite numbers only. -/
theorem finite_of_parse {text : String} {file : ModelFile} (h : parse text = .ok file) :
    file.Finite := by
  obtain ⟨⟨value, rest⟩, hvalue, h⟩ := bind_eq_ok_iff.1 h
  dsimp only at h
  split at h
  · cases h
    exact readValue_yields _ hvalue
  · cases h

end ModelFile

end MixedInteger
