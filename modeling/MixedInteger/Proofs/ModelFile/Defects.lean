import MixedInteger.CommandLine.Run
import MixedInteger.Proofs.Attempts
import MixedInteger.Proofs.ModelFile.Numbers

/-!
# Defects of models that are read

The check of a model reports the first defect that it meets, and what it reports is true of the
model.  A model that a file describes takes its sizes from its rows and its costs, its numbers are
finite, and where a bound is left open the infinity is on the side on which it bounds nothing.  So
most of what the check looks for cannot be found in such a model: what remains are rows and lists of
a wrong length, bounds that cross, and variables without any bound.

The command line solves models of files and two samples, which are of the same kind, and nothing
else; so it never shows one of the other defects.
-/

namespace MixedInteger

open Arithmetic

namespace Model

/-! ## What a defect says -/

section Describes

variable {α : Type}

/-- The length of a list of a model. -/
def partLength (model : Model α) : Part → ℕ
  | .rightHandSide => model.b.length
  | .cost => model.c.length
  | .lowerBound => model.lower.length
  | .upperBound => model.upper.length
  | .integrality => model.integer.length

/-- The length that the sizes of a model promise for a list. -/
def promisedLength (model : Model α) : Part → ℕ
  | .rightHandSide => model.m
  | _ => model.n

/-- Variable `j` of a model has the given bounds. -/
structure Bounds (model : Model α) (j : ℕ) (lower upper : α) : Prop where
  lower : model.lower[j]? = some lower
  upper : model.upper[j]? = some upper

variable [Arithmetic α]

/-- A defect says something true of a model. -/
inductive Describes (model : Model α) : Defect α → Prop where
  | rowCount (h : model.A.length ≠ model.m) : Describes model (.rowCount model.A.length model.m)
  | rowLength {i : ℕ} {row : List α} (hrow : model.A[i]? = some row)
      (h : row.length ≠ model.n) : Describes model (.rowLength i row.length model.n)
  | coefficient {i j : ℕ} {row : List α} {a : α} (hrow : model.A[i]? = some row)
      (ha : row[j]? = some a) (h : isFinite a = false) : Describes model (.coefficient i j)
  | partLength (part : Part) (h : model.partLength part ≠ model.promisedLength part) :
      Describes model (.partLength part (model.partLength part) (model.promisedLength part))
  | rightHandSide {i : ℕ} {a : α} (ha : model.b[i]? = some a) (h : isFinite a = false) :
      Describes model (.rightHandSide i)
  | cost {j : ℕ} {a : α} (ha : model.c[j]? = some a) (h : isFinite a = false) :
      Describes model (.cost j)
  | undefinedBound {j : ℕ} {l u : α} (hj : model.Bounds j l u)
      (h : isUndefined l = true ∨ isUndefined u = true) : Describes model (.undefinedBound j)
  | unreachableBound {j : ℕ} {l u : α} (hj : model.Bounds j l u)
      (h : infinity ≤ l ∨ u ≤ -infinity) : Describes model (.unreachableBound j l u)
  | crossedBounds {j : ℕ} {l u : α} (hj : model.Bounds j l u) (h : u < l) :
      Describes model (.crossedBounds j l u)
  | free {j : ℕ} {l u : α} (hj : model.Bounds j l u) (hl : isInfinite l = true)
      (hu : isInfinite u = true) : Describes model (.free j)

theorem exists_not_finite {values : List α} {i : ℕ}
    (h : values.findIdx? (fun a ↦ !isFinite a) = some i) :
    ∃ a, values[i]? = some a ∧ isFinite a = false := by
  obtain ⟨hi, hfound, -⟩ := List.findIdx?_eq_some_iff_getElem.1 h
  rw [Bool.not_eq_true'] at hfound
  exact ⟨values[i], List.getElem?_eq_getElem hi, hfound⟩

variable {model : Model α} {defect : Defect α}

theorem describes_of_rowDefect? {i : ℕ} {row : List α} (hrow : model.A[i]? = some row)
    (h : rowDefect? model.n row i = some defect) : model.Describes defect := by
  unfold rowDefect? at h
  split_ifs at h with hlength
  · cases h
    exact .rowLength hrow hlength
  · obtain ⟨j, hj, rfl⟩ := Option.map_eq_some_iff.1 h
    obtain ⟨a, ha, hfinite⟩ := exists_not_finite hj
    exact .coefficient hrow ha hfinite

theorem describes_of_partDefect? (part : Part)
    (h : partDefect? part (model.partLength part) (model.promisedLength part) = some defect) :
    model.Describes defect := by
  unfold partDefect? at h
  split_ifs at h with hlength
  cases h
  exact .partLength part hlength

theorem describes_of_boundDefect? {j : ℕ} {l u : α} (hj : model.Bounds j l u)
    (h : boundDefect? l u j = some defect) : model.Describes defect := by
  unfold boundDefect? at h
  split_ifs at h with hundefined hunreachable hcrossed hfree
  · cases h
    exact .undefinedBound hj (Bool.or_eq_true_iff.1 hundefined)
  · cases h
    exact .unreachableBound hj hunreachable
  · cases h
    exact .crossedBounds hj hcrossed
  · cases h
    obtain ⟨hl, hu⟩ := Bool.and_eq_true_iff.1 hfree
    exact .free hj hl hu

/-- The defect that is found is one of the model. -/
theorem describes_of_defect? (h : model.defect? = some defect) : model.Describes defect := by
  simp only [defect?, Option.or_eq_some_iff] at h
  -- one case for each test, in the order of the tests
  rcases h with ((((((((h | ⟨-, h⟩) | ⟨-, h⟩) | ⟨-, h⟩) | ⟨-, h⟩) | ⟨-, h⟩) | ⟨-, h⟩) | ⟨-, h⟩) |
    ⟨-, h⟩) | ⟨-, h⟩
  · obtain ⟨hrows, hdefect⟩ := Option.ite_none_right_eq_some.1 h
    cases hdefect
    exact .rowCount hrows
  · obtain ⟨⟨row, i⟩, hmem, hdefect⟩ := List.exists_of_findSome?_eq_some h
    exact describes_of_rowDefect? (List.mem_zipIdx_iff_getElem?.1 hmem) hdefect
  · exact describes_of_partDefect? .rightHandSide h
  · exact describes_of_partDefect? .cost h
  · exact describes_of_partDefect? .lowerBound h
  · exact describes_of_partDefect? .upperBound h
  · exact describes_of_partDefect? .integrality h
  · obtain ⟨i, hi, rfl⟩ := Option.map_eq_some_iff.1 h
    obtain ⟨a, ha, hfinite⟩ := exists_not_finite hi
    exact .rightHandSide ha hfinite
  · obtain ⟨j, hj, rfl⟩ := Option.map_eq_some_iff.1 h
    obtain ⟨a, ha, hfinite⟩ := exists_not_finite hj
    exact .cost ha hfinite
  · obtain ⟨⟨⟨l, u⟩, j⟩, hmem, hdefect⟩ := List.exists_of_findSome?_eq_some h
    obtain ⟨hl, hu⟩ := List.getElem?_zip_eq_some.1 (List.mem_zipIdx_iff_getElem?.1 hmem)
    exact describes_of_boundDefect? ⟨hl, hu⟩ hdefect

theorem validate_eq_error_iff : model.validate = .error defect ↔ model.defect? = some defect := by
  unfold validate
  split
  · rename_i found hfound
    rw [hfound, Except.error.injEq, Option.some.injEq]
  · rename_i hnone
    refine iff_of_false nofun fun hsome ↦ ?_
    cases hnone.symm.trans hsome

/-- The check of a model fails with a defect that says something true of the model. -/
theorem describes_of_validate (h : model.validate = .error defect) : model.Describes defect :=
  describes_of_defect? (validate_eq_error_iff.1 h)

end Describes

/-! ## Models that are read -/

/-- The sizes, the answer and the numbers of a model that is read. -/
structure AsRead (model : Model Float) : Prop where
  rows : model.m = model.A.length
  columns : model.n = model.c.length
  unsolved : model.status = .unsolved
  point : model.x = none
  value : model.z = none
  coefficient : ∀ row ∈ model.A, ∀ a ∈ row, a.isFinite = true
  rightHandSide : ∀ a ∈ model.b, a.isFinite = true
  cost : ∀ a ∈ model.c, a.isFinite = true
  lower : ∀ l ∈ model.lower, l.isFinite = true ∨ l = -infinity
  upper : ∀ u ∈ model.upper, u.isFinite = true ∨ u = infinity

/-- The length that a list should have by the rows and the costs of a model. -/
def givenLength (model : Model Float) : Part → ℕ
  | .rightHandSide => model.A.length
  | _ => model.c.length

/-- A defect that a model can have after it has been read: a row has not one coefficient for each
cost, a list other than the costs has a wrong length, bounds cross, or a variable has none. -/
inductive Remaining (model : Model Float) : Defect Float → Prop where
  | rowLength {i : ℕ} {row : List Float} (hrow : model.A[i]? = some row)
      (h : row.length ≠ model.c.length) :
      Remaining model (.rowLength i row.length model.c.length)
  | partLength {part : Part} (hpart : part ≠ .cost)
      (h : model.partLength part ≠ model.givenLength part) :
      Remaining model (.partLength part (model.partLength part) (model.givenLength part))
  | crossedBounds {j : ℕ} {l u : Float} (hj : model.Bounds j l u) (h : u < l) :
      Remaining model (.crossedBounds j l u)
  | free {j : ℕ} (hj : model.Bounds j (-infinity) infinity) : Remaining model (.free j)

namespace AsRead

variable {model : Model Float} (hmodel : model.AsRead)

include hmodel

/-- The sizes promise what the rows and the costs say. -/
theorem promisedLength_eq (part : Part) : model.promisedLength part = model.givenLength part := by
  cases part with
  | rightHandSide => exact hmodel.rows
  | _ => exact hmodel.columns

theorem remaining_partLength {part : Part}
    (h : model.partLength part ≠ model.promisedLength part) :
    model.Remaining (.partLength part (model.partLength part) (model.promisedLength part)) := by
  rw [hmodel.promisedLength_eq] at h ⊢
  refine .partLength ?_ h
  rintro rfl
  exact h rfl

section Bounds

variable {j : ℕ} {l u : Float} (hj : model.Bounds j l u)

include hj

/-- A lower bound is finite or open. -/
theorem lower_cases : l.isFinite = true ∨ l = -infinity :=
  hmodel.lower l (List.mem_of_getElem? hj.lower)

/-- An upper bound is finite or open. -/
theorem upper_cases : u.isFinite = true ∨ u = infinity :=
  hmodel.upper u (List.mem_of_getElem? hj.upper)

theorem isNaN_lower : l.isNaN = false := by
  rcases hmodel.lower_cases hj with hfinite | rfl
  · exact Binary64.isNaN_of_isFinite hfinite
  · rfl

theorem isNaN_upper : u.isNaN = false := by
  rcases hmodel.upper_cases hj with hfinite | rfl
  · exact Binary64.isNaN_of_isFinite hfinite
  · rfl

/-- The bounds are not infinite on the side on which they admit nothing. -/
theorem reachable : ¬ (infinity ≤ l ∨ u ≤ -infinity) := by
  rw [Binary64.infinity_le_iff, Binary64.le_neg_infinity_iff]
  rintro (rfl | rfl)
  · rcases hmodel.lower_cases hj with hfinite | heq
    · exact absurd hfinite (by decide)
    · exact absurd heq (by decide)
  · rcases hmodel.upper_cases hj with hfinite | heq
    · exact absurd hfinite (by decide)
    · exact absurd heq (by decide)

/-- Infinite bounds are open ones. -/
theorem remaining_free (hl : isInfinite l = true) (hu : isInfinite u = true) :
    model.Remaining (.free j) := by
  rw [Binary64.isInfinite_eq (hmodel.isNaN_lower hj), Bool.not_eq_true'] at hl
  rw [Binary64.isInfinite_eq (hmodel.isNaN_upper hj), Bool.not_eq_true'] at hu
  obtain rfl := (hmodel.lower_cases hj).resolve_left (Bool.eq_false_iff.1 hl)
  obtain rfl := (hmodel.upper_cases hj).resolve_left (Bool.eq_false_iff.1 hu)
  exact .free hj

end Bounds

/-- What a defect says is true of few models that are read. -/
theorem remaining {defect : Defect Float} (h : model.Describes defect) :
    model.Remaining defect := by
  have hfinite : ∀ {a : Float}, a.isFinite = true → isFinite a = false → False := by
    intro a ha hnot
    rw [Binary64.isFinite_eq, ha] at hnot
    cases hnot
  cases h with
  | rowCount h => exact absurd hmodel.rows.symm h
  | rowLength hrow h =>
    rw [hmodel.columns] at h ⊢
    exact .rowLength hrow h
  | coefficient hrow ha h =>
    exact (hfinite (hmodel.coefficient _ (List.mem_of_getElem? hrow) _ (List.mem_of_getElem? ha))
      h).elim
  | partLength part h => exact hmodel.remaining_partLength h
  | rightHandSide ha h =>
    exact (hfinite (hmodel.rightHandSide _ (List.mem_of_getElem? ha)) h).elim
  | cost ha h => exact (hfinite (hmodel.cost _ (List.mem_of_getElem? ha)) h).elim
  | undefinedBound hj h =>
    rw [Binary64.isUndefined_eq, Binary64.isUndefined_eq, hmodel.isNaN_lower hj,
      hmodel.isNaN_upper hj] at h
    exact absurd h (by decide)
  | unreachableBound hj h => exact absurd h (hmodel.reachable hj)
  | crossedBounds hj h => exact .crossedBounds hj h
  | free hj hl hu => exact hmodel.remaining_free hj hl hu

theorem remaining_of_validate {defect : Defect Float} (h : model.validate = .error defect) :
    model.Remaining defect :=
  hmodel.remaining (describes_of_validate h)

end AsRead

end Model

namespace ModelFile

/-! ## Files -/

/-- A file with finite numbers describes a model as it is read. -/
theorem Finite.asRead {file : ModelFile} (h : file.Finite) : file.toModel.AsRead where
  rows := rfl
  columns := rfl
  unsolved := rfl
  point := rfl
  value := rfl
  coefficient row hrow a ha := h a (mem_numbers.2 ⟨.A, List.mem_flatten_of_mem hrow ha⟩)
  rightHandSide a ha := h a (mem_numbers.2 ⟨.b, ha⟩)
  cost a ha := h a (mem_numbers.2 ⟨.c, ha⟩)
  lower l hl := by
    obtain ⟨A, b, c, lower, upper, integer⟩ := file
    cases lower with
    | none =>
      obtain rfl : l = 0 := List.eq_of_mem_replicate hl
      exact .inl (by decide)
    | some bounds =>
      obtain ⟨bound, hbound, rfl⟩ := List.mem_map.1 hl
      cases bound with
      | none => exact .inr rfl
      | some x =>
        exact .inl (h x (mem_numbers.2 ⟨.lower, mem_reduceOption_getD.2 ⟨bounds, rfl, hbound⟩⟩))
  upper u hu := by
    obtain ⟨A, b, c, lower, upper, integer⟩ := file
    cases upper with
    | none =>
      obtain rfl : u = Arithmetic.infinity := List.eq_of_mem_replicate hu
      exact .inr rfl
    | some bounds =>
      obtain ⟨bound, hbound, rfl⟩ := List.mem_map.1 hu
      cases bound with
      | none => exact .inr rfl
      | some x =>
        exact .inl (h x (mem_numbers.2 ⟨.upper, mem_reduceOption_getD.2 ⟨bounds, rfl, hbound⟩⟩))

theorem asRead_of_parse {text : String} {file : ModelFile} (h : parse text = .ok file) :
    file.toModel.AsRead :=
  (finite_of_parse h).asRead

end ModelFile

/-! ## Attempts -/

section Attempts

variable {model : Model Float} {defect : Defect Float}

/-- An attempt that ends with a defect ends with what the check reports. -/
theorem Model.validate_of_ending
    {solved : Program Float model.m model.n →
      Option (Except Simplex.DeadEnd (Outcome Float model.n))}
    (h : model.ending solved = some (.error (.invalid defect))) :
    model.validate = .error defect := by
  cases hvalid : model.validate with
  | error other =>
    rw [Model.ending_of_error solved hvalid] at h
    cases h
    rfl
  | ok program =>
    -- what fails behind the check is a run of the simplex method
    rw [Model.ending_of_ok solved hvalid] at h
    obtain ⟨result, -, hresult⟩ := Option.map_eq_some_iff.1 h
    cases result <;> cases hresult

/-- An attempt reports a defect if it ends with it. -/
theorem Attempt.EndsAs.ended_of_invalid {β : Type} {attempt : Attempt model β}
    {status : β → SolutionStatus} {ended : Option (Except (Failure Float) (Outcome Float model.n))}
    (h : attempt.EndsAs status ended)
    (hresult : attempt.result = some (.error (.invalid defect))) :
    ended = some (.error (.invalid defect)) := by
  have hmapped := h.result
  rw [hresult] at hmapped
  obtain ⟨result, hended, hfailure⟩ := Option.map_eq_some_iff.1 hmapped.symm
  cases result with
  | error failure =>
    cases hfailure
    exact hended
  | ok outcome => cases hfailure

theorem Model.solve_of_error (settings : Settings Float) (allowance : Allowance)
    (h : model.validate = .error defect) : (model.solve settings allowance).records = [] := by
  unfold Model.solve
  rw [h]

end Attempts

namespace CommandLine

/-! ## The command line -/

/-- Lines that tell of the nodes of a search. -/
def Progress (lines : List String) : Prop :=
  ∀ line ∈ lines, ∃ (n : ℕ) (event : Search.NodeEvent Float n), line = nodeLine event

/-- What the program shows: how it is used, why it cannot load a file, which of the remaining
defects a model has, or what comes of a model without defects. -/
inductive Shown : Output → Prop where
  | usage (refusal : Refusal) : Shown refusal.output
  | unloaded (e : LoadError) :
      Shown { exit := 1, lines := [], errors := [s!"Error: {e.message}"] }
  | invalid {model : Model Float} {defect : Defect Float} (hmodel : model.AsRead)
      (hvalid : model.validate = .error defect) (h : model.Remaining defect) :
      Shown
        { exit := 1
          lines := []
          errors := [s!"Solver error: {(Failure.invalid defect).text}"] }
  | deadEnd {lines : List String} (hlines : Progress lines) (e : Simplex.DeadEnd) :
      Shown
        { exit := 1
          lines := []
          errors := lines ++ [s!"Solver error: {(Failure.deadEnd e).text}"] }
  | unfinished {lines : List String} (hlines : Progress lines) :
      Shown { exit := 1, lines := [], errors := lines }
  | answered {lines : List String} (hlines : Progress lines) (model : Model Float)
      (format : Format) (nodes : Option ℕ) :
      Shown
        { exit := exitCode model
          lines := answerLines format model nodes
          errors := lines }

variable {model : Model Float}

theorem shown_conclude (hmodel : model.AsRead) {β : Type} {attempt : Attempt model β}
    {lines : List String} (hlines : Progress lines)
    (hinvalid : ∀ defect, attempt.result = some (.error (.invalid defect)) →
      model.validate = .error defect ∧ lines = [])
    (format : Format) (nodes : β → Option ℕ) : Shown (conclude format lines nodes attempt) := by
  unfold conclude
  split
  · exact .unfinished hlines
  · rename_i failure hresult
    cases failure with
    | invalid defect =>
      obtain ⟨hvalid, rfl⟩ := hinvalid defect hresult
      exact .invalid hmodel hvalid (hmodel.remaining_of_validate hvalid)
    | deadEnd e => exact .deadEnd hlines e
  · exact .answered hlines _ format _

theorem shown_solveAndShow (hmodel : model.AsRead) (settings : Settings Float)
    (relax progress : Bool) (format : Format) :
    Shown (solveAndShow settings relax progress format model) := by
  unfold solveAndShow
  split
  · have hnone : Progress [] := nofun
    apply shown_conclude hmodel hnone
    intro defect hresult
    have hended := (model.endsAs_solveRelaxation settings .ample).ended_of_invalid hresult
    exact ⟨Model.validate_of_ending hended, rfl⟩
  · apply shown_conclude hmodel
    · intro line hline
      split at hline
      · obtain ⟨record, -, hrecord⟩ := List.mem_filterMap.1 hline
        obtain ⟨event, -, rfl⟩ := Option.map_eq_some_iff.1 hrecord
        exact ⟨_, event, rfl⟩
      · cases hline
    · intro defect hresult
      have hended := (model.endsAs_solve settings .ample).ended_of_invalid hresult
      have hvalid := Model.validate_of_ending hended
      rw [Model.solve_of_error settings .ample hvalid]
      exact ⟨hvalid, ite_self _⟩

theorem asRead_of_load {read : ReadFile} {path : String} (h : load read path = .ok model) :
    model.AsRead := by
  unfold load at h
  split at h
  · cases h
  · split at h
    · cases h
    · split at h
      · cases h
      · cases h
        exact ModelFile.asRead_of_parse ‹_›

theorem asRead_boundedRows : Sample.boundedRows.AsRead :=
  ⟨rfl, rfl, rfl, rfl, rfl, by decide, by decide, by decide,
    by decide, by decide⟩

theorem asRead_setPacking : Sample.setPacking.AsRead :=
  ⟨rfl, rfl, rfl, rfl, rfl, by decide, by decide, by decide,
    by decide, by decide⟩

theorem shown_command (read : ReadFile) (command : Command) : Shown (command.run read) := by
  cases command with
  | demo problem format =>
    cases problem with
    | boundedRows => exact shown_solveAndShow asRead_boundedRows _ _ _ _
    | setPacking => exact shown_solveAndShow asRead_setPacking _ _ _ _
  | solve request =>
    rw [Command.run]
    split
    · exact .unloaded _
    · exact shown_solveAndShow (asRead_of_load ‹_›) _ _ _ _

theorem shown_run (read : ReadFile) (arguments : List String) : Shown (run read arguments) := by
  unfold run
  split
  · exact shown_command read _
  · exact .usage _

/-- A text that can be read describes a model whose sizes fit its rows and costs, without an answer
and with numbers that are finite, save for open bounds; what the check of such a model reports is a
row or a list of a wrong length, crossed bounds or a free variable.  The command line shows no other
defect, whatever files there are. -/
theorem remaining_defects :
    (∀ (text : String) (file : ModelFile), ModelFile.parse text = .ok file →
      file.toModel.AsRead ∧
      ∀ defect, file.toModel.validate = .error defect → file.toModel.Remaining defect) ∧
    ∀ (read : ReadFile) (arguments : List String), Shown (run read arguments) := by
  refine ⟨fun text file h ↦ ?_, shown_run⟩
  have hmodel := ModelFile.asRead_of_parse h
  exact ⟨hmodel, fun defect ↦ hmodel.remaining_of_validate⟩

/-- A text whose second variable is left without bounds. -/
def openText : String :=
  "[[[1, 1]], [2], [0, 1], [0, null], [1, null]]"

theorem remaining_defects_of_open :
    ∃ file, ModelFile.parse openText = .ok file ∧ file.toModel.validate = .error (.free 1) ∧
      file.toModel.AsRead ∧ file.toModel.Remaining (.free 1) ∧
      Shown (run (fun _ ↦ .ok openText.toUTF8) ["solve", "model.json"]) := by
  let file : ModelFile :=
    { A := [[1, 1]]
      b := [2]
      c := [0, 1]
      lower := some [some 0, none]
      upper := some [some 1, none]
      integer := none }
  have hparse : ModelFile.parse openText = .ok file := by with_unfolding_all decide
  have hdefect : file.toModel.validate = .error (.free 1) :=
    Model.validate_eq_error_iff.2 (by decide)
  obtain ⟨hmodel, hremaining⟩ := remaining_defects.1 openText file hparse
  exact ⟨file, hparse, hdefect, hmodel, hremaining _ hdefect, remaining_defects.2 _ _⟩

end CommandLine

end MixedInteger
