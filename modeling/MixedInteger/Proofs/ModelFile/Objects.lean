import MixedInteger.ModelFile.Reader
import MixedInteger.Proofs.Json.Tokens

/-!
# Objects of model files

Reading an object fills a draft, one member after the other.  What a member does to the draft is
read without regard to the members around it; so an object is spelled by its members in sequence,
with commas between them and white space wherever it may stand, and the file it describes is that of
the draft after the last member.
-/

namespace MixedInteger

namespace ModelFile

open Json

/-! ## Values of fields -/

/-- What a field holds. -/
def Field.Value : Field → Type
  | .A => List (List Float)
  | .b => List Float
  | .c => List Float
  | .lower => Option (List (Option Float))
  | .upper => Option (List (Option Float))
  | .integer => Option (List Bool)

/-- Reads the value of a field. -/
def Field.reader (limit : Nat) : (field : Field) → Reader field.Value
  | .A => readArray limit (readArray limit readNumber)
  | .b => readArray limit readNumber
  | .c => readArray limit readNumber
  | .lower => readNullable (readArray limit (readNullable readNumber))
  | .upper => readNullable (readArray limit (readNullable readNumber))
  | .integer => readNullable (readArray limit readFlag)

/-- The draft with a value for a field. -/
def Draft.put (draft : Draft) : (field : Field) → field.Value → Draft
  | .A, value => { draft with A := some value }
  | .b, value => { draft with b := some value }
  | .c, value => { draft with c := some value }
  | .lower, value => { draft with lower := some value }
  | .upper, value => { draft with upper := some value }
  | .integer, value => { draft with integer := some value }

/-- A draft takes in what the reader of the field returns. -/
theorem Draft.read_eq (limit : Nat) (draft : Draft) (field : Field) (text : List Char) :
    draft.read limit field text =
      field.reader limit text >>= fun read ↦ .ok (draft.put field read.1, read.2) := by
  cases field <;> rfl

theorem Draft.has_put (draft : Draft) (field other : Field) (value : field.Value) :
    (draft.put field value).has other = (field == other || draft.has other) := by
  cases field <;> cases other <;> rfl

/-! ## Keys -/

theorem Field.isPlain_key (field : Field) : ∀ c ∈ field.key, isPlain c = true := by
  have hall : field.key.all isPlain = true := by cases field <;> rfl
  exact List.all_eq_true.1 hall

/-- The key of a field spells itself. -/
theorem Field.keyText (field : Field) : KeyText field.key field.key :=
  keyText_of_plain field.isPlain_key

@[simp]
theorem Field.ofKey?_key (field : Field) : Field.ofKey? field.key = some field := by
  cases field <;> rfl

/-! ## Members -/

/-- Reads the value of a member, given its field if it has one. -/
def readKeyed (limit : Nat) (draft : Draft) (field : Option Field) : Reader Draft := fun text ↦
  match field with
  | some field => draft.read limit field text
  | none => do
    let rest ← skipValue limit text
    return (draft, rest)

/-- Reads the colon of a member and the value behind it. -/
def readColon (limit : Nat) (draft : Draft) (field : Option Field) : Reader Draft := fun text ↦
  match dropSpace text with
  | [] => .error .truncated
  | ':' :: rest => readKeyed limit draft field rest
  | _ => .error .malformed

/-- Reads a member into a draft after the quote of its key. -/
def readMember (limit : Nat) (draft : Draft) : Reader Draft := fun text ↦ do
  let (key, rest) ← string text
  let field := Field.ofKey? key
  if field.any draft.has then throw .mismatched
  readColon limit draft field rest

/-- Goes on after a member, with the end of the object or the next member. -/
def readAfter (limit fuel : Nat) : Draft × List Char → Except Problem (ModelFile × List Char)
  | (draft, text) =>
    match dropSpace text with
    | [] => .error .truncated
    | '}' :: rest => do
      let file ← draft.finish
      return (file, rest)
    | ',' :: rest =>
      match dropSpace rest with
      | [] => .error .truncated
      | '"' :: rest => readMembers limit fuel draft rest
      | _ => .error .malformed
    | _ => .error .malformed

theorem readColon_of_ne {limit : Nat} {draft : Draft} {field : Option Field} {text : List Char}
    (hnil : dropSpace text ≠ []) (hcolon : ∀ rest, dropSpace text ≠ ':' :: rest) :
    readColon limit draft field text = .error .malformed := by
  unfold readColon
  split
  · exact absurd ‹_› hnil
  · exact absurd ‹_› (hcolon _)
  · rfl

/-- Members are read one after the other. -/
theorem readMembers_succ (limit fuel : Nat) (draft : Draft) (text : List Char) :
    readMembers limit (fuel + 1) draft text =
      readMember limit draft text >>= readAfter limit fuel := by
  rw [readMembers, readMember]
  cases string text with
  | error problem => rfl
  | ok read =>
    obtain ⟨key, rest⟩ := read
    change (if (Field.ofKey? key).any draft.has then _ else _) =
      (if (Field.ofKey? key).any draft.has then _ else _) >>= readAfter limit fuel
    split_ifs
    · rfl
    · dsimp only
      split
      · rename_i hnil
        rw [readColon, hnil]
        rfl
      · rename_i after hcolon
        rw [readColon, hcolon]
        change _ = readKeyed limit draft (Field.ofKey? key) after >>= readAfter limit fuel
        cases Field.ofKey? key with
        | none =>
          rw [readKeyed]
          cases skipValue limit after <;> rfl
        | some field => rfl
      · rename_i hnil hcolon
        rw [readColon_of_ne hnil hcolon]
        rfl

/-- A member is spelled by its key and a value of it, if the key does not belong to a field that has
been read. -/
theorem reads_keyed {limit : Nat} {draft result : Draft} {key name space text : List Char}
    (hkey : KeyText key name) (hnew : (Field.ofKey? name).any draft.has = false)
    (hspace : Blank space)
    (htext : Reads (readKeyed limit draft (Field.ofKey? name)) text result) :
    Reads (readMember limit draft) (key ++ '"' :: (space ++ ':' :: text)) result := by
  intro rest hrest
  have hcolon : dropSpace (space ++ ':' :: (text ++ rest)) = ':' :: (text ++ rest) :=
    dropSpace_append hspace _
  rw [List.append_assoc, List.cons_append, List.append_assoc, List.cons_append, readMember,
    string_append hkey]
  change (if (Field.ofKey? name).any draft.has then _ else _) = _
  rw [hnew, if_neg Bool.false_ne_true, readColon, hcolon]
  exact htext rest hrest

theorem reads_put {limit : Nat} {field : Field} {text : List Char} {value : field.Value}
    (htext : Reads (field.reader limit) text value) (draft : Draft) :
    Reads (draft.read limit field) text (draft.put field value) := by
  intro rest hrest
  rw [Draft.read_eq, htext rest hrest]
  rfl

/-- A member is spelled by the key of a field that has not been read yet and a value of it. -/
theorem reads_member {limit : Nat} {draft : Draft} {field : Field}
    (hnew : draft.has field = false) {space text : List Char} (hspace : Blank space)
    {value : field.Value} (htext : Reads (field.reader limit) text value) :
    Reads (readMember limit draft) (field.key ++ '"' :: (space ++ ':' :: text))
      (draft.put field value) := by
  apply reads_keyed field.keyText _ hspace
  · rw [Field.ofKey?_key]
    exact reads_put htext draft
  · rw [Field.ofKey?_key]
    exact hnew

/-! ## Objects -/

/-- The members of an object after the quote of the first key, with the closing bracket, and the
drafts before and after them. -/
inductive Members (limit : Nat) : Draft → List Char → Draft → Prop where
  | last {draft result : Draft} {text space : List Char}
      (htext : Reads (readMember limit draft) text result) (hspace : Blank space) :
      Members limit draft (text ++ (space ++ ['}'])) result
  | cons {draft middle result : Draft} {text space gap more : List Char}
      (htext : Reads (readMember limit draft) text middle) (hspace : Blank space)
      (hgap : Blank gap) (hmore : Members limit middle more result) :
      Members limit draft (text ++ (space ++ ',' :: (gap ++ '"' :: more))) result

theorem readMembers_of_members {limit : Nat} {draft result : Draft} {text : List Char}
    (h : Members limit draft text result) {file : ModelFile} (hfile : result.finish = .ok file)
    {fuel : Nat} (hfuel : text.length ≤ fuel) (rest : List Char) :
    readMembers limit fuel draft (text ++ rest) = .ok (file, rest) := by
  induction h generalizing fuel with
  | @last draft result text space htext hspace =>
    simp only [List.length_append, List.length_singleton] at hfuel
    obtain ⟨fuel, rfl⟩ := Nat.exists_eq_add_one_of_ne_zero (n := fuel) (by omega)
    have hends : EndsNumeral (space ++ '}' :: rest) :=
      endsNumeral_of_blank hspace ⟨by decide, by decide, by decide, by decide⟩
    have hclose : dropSpace (space ++ '}' :: rest) = '}' :: rest := dropSpace_append hspace _
    have hmember := htext _ hends
    rw [List.append_assoc, List.append_assoc, List.singleton_append, readMembers_succ, hmember]
    change readAfter limit fuel (result, _) = _
    rw [readAfter, hclose]
    change (result.finish >>= fun file ↦ _) = _
    rw [hfile]
    rfl
  | @cons draft middle result text space gap more htext hspace hgap hmore ih =>
    simp only [List.length_append, List.length_cons] at hfuel
    obtain ⟨fuel, rfl⟩ := Nat.exists_eq_add_one_of_ne_zero (n := fuel) (by omega)
    have hcomma : dropSpace (space ++ ',' :: (gap ++ '"' :: (more ++ rest))) =
        ',' :: (gap ++ '"' :: (more ++ rest)) := dropSpace_append hspace _
    have hquote : dropSpace (gap ++ '"' :: (more ++ rest)) = '"' :: (more ++ rest) :=
      dropSpace_append hgap _
    have hmember := htext _ (endsNumeral_comma hspace (gap ++ '"' :: (more ++ rest)))
    rw [List.append_assoc, List.append_assoc, List.cons_append, List.append_assoc,
      List.cons_append, readMembers_succ, hmember]
    change readAfter limit fuel (middle, _) = _
    simp only [readAfter, hcomma, hquote]
    exact ih hfile (by omega)

/-- An object whose members fill a draft is read as the file of the draft. -/
theorem reads_object {limit : Nat} {result : Draft} {gap text : List Char} (hgap : Blank gap)
    (h : Members limit {} text result) {file : ModelFile} (hfile : result.finish = .ok file)
    (hlimit : text.length ≤ limit) :
    Reads (readValue limit) ('{' :: (gap ++ '"' :: text)) file := by
  intro rest _
  have hquote : dropSpace (gap ++ '"' :: (text ++ rest)) = '"' :: (text ++ rest) :=
    dropSpace_append hgap _
  rw [List.cons_append, List.append_assoc, List.cons_append]
  change readObject limit (gap ++ '"' :: (text ++ rest)) = _
  rw [readObject, hquote]
  exact readMembers_of_members h hfile hlimit rest

/-! ## Files -/

/-- A text that spells a file is read as this file, also with white space behind. -/
theorem parse_of_reads {text space : List Char} {file : ModelFile}
    (h : Reads (readValue (text ++ space).length) text file) (hspace : Blank space) :
    parse (String.ofList (text ++ space)) = .ok file := by
  have hends : EndsNumeral (space ++ []) := endsNumeral_of_blank hspace trivial
  have hend : dropSpace (space ++ []) = [] := dropSpace_append hspace []
  rw [List.append_nil] at hends hend
  have hvalue := h space hends
  rw [parse, String.toList_ofList]
  simp only [hvalue, bind, Except.bind, hend]
  rfl

end ModelFile

end MixedInteger
