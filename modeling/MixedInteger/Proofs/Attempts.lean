import MixedInteger.Proofs.Program.Rational
import MixedInteger.Proofs.Search.Answers

/-!
# What an attempt changes

A model is a problem together with an answer.  An attempt to solve it, with or without its
integrality requirements, never changes the problem.  One that fails, be it at the first check or
at a node deep in a search that has already found points, leaves the old answer as well; one that
succeeds puts a new answer in its place, which does not depend on the old one.
-/

namespace MixedInteger

variable {α : Type}

/-! ## Problems and answers -/

/-- Two models state the same problem, whatever their answers are. -/
structure Model.SameProblem (model other : Model α) : Prop where
  m : other.m = model.m
  n : other.n = model.n
  A : other.A = model.A
  b : other.b = model.b
  c : other.c = model.c
  lower : other.lower = model.lower
  upper : other.upper = model.upper
  integer : other.integer = model.integer

/-- The model with another answer, which need not make sense. -/
def Model.withAnswer (model : Model α) (x : Option (List α)) (z : Option α)
    (status : SolutionStatus) : Model α :=
  { model with x := x, z := z, status := status }

/-- The model shows an answer of the given status: a point with one value per variable, and its
cost, if it is optimal, and neither of them otherwise. -/
structure Model.Shows (model : Model α) (status : SolutionStatus) : Prop where
  shown : model.status = status
  attempted : status = .optimal ∨ status = .infeasible ∨ status = .unbounded
  point : model.x.isSome ↔ status = .optimal
  cost : model.z.isSome ↔ status = .optimal
  length : ∀ x, model.x = some x → x.length = model.n

theorem Model.sameProblem_refl (model : Model α) : model.SameProblem model :=
  ⟨rfl, rfl, rfl, rfl, rfl, rfl, rfl, rfl⟩

theorem Model.sameProblem_answered {n : Nat} (model : Model α) (outcome : Outcome α n) :
    model.SameProblem (model.answered outcome) := by
  cases outcome <;> exact ⟨rfl, rfl, rfl, rfl, rfl, rfl, rfl, rfl⟩

theorem Model.shows_answered (model : Model α) (outcome : Outcome α model.n) :
    (model.answered outcome).Shows outcome.status := by
  cases outcome with
  | optimal x z =>
    refine ⟨rfl, .inl rfl, by simp [answered, Outcome.status], by simp [answered, Outcome.status],
      fun values hvalues ↦ ?_⟩
    obtain rfl : x.toList = values := Option.some.inj hvalues
    exact x.length_toList
  | infeasible => exact ⟨rfl, .inr (.inl rfl), by simp [answered, Outcome.status],
      by simp [answered, Outcome.status], by simp [answered]⟩
  | unbounded => exact ⟨rfl, .inr (.inr rfl), by simp [answered, Outcome.status],
      by simp [answered, Outcome.status], by simp [answered]⟩

/-- A new answer takes the place of any old one. -/
theorem Model.answered_withAnswer {n : Nat} (model : Model α) (x : Option (List α)) (z : Option α)
    (status : SolutionStatus) (outcome : Outcome α n) :
    (model.withAnswer x z status).answered outcome = model.answered outcome := by
  cases outcome <;> rfl

/-! ## How attempts end -/

/-- The model after an attempt that ends in the given way, if it ends at all. -/
def Model.afterwards (model : Model α) :
    Option (Except (Failure α) (Outcome α model.n)) → Model α
  | some (.ok outcome) => model.answered outcome
  | _ => model

/-- An attempt ends in the given way: it reports the failure or the status of the outcome, and the
model shows the outcome. -/
structure Attempt.EndsAs {model : Model α} {β : Type} (attempt : Attempt model β)
    (status : β → SolutionStatus) (ended : Option (Except (Failure α) (Outcome α model.n))) :
    Prop where
  result : attempt.result.map (Except.map status) = ended.map (Except.map Outcome.status)
  after : attempt.after = model.afterwards ended

namespace Model

variable [Arithmetic α]

/-- How an attempt ends that checks the model and then solves its program. -/
def ending (model : Model α)
    (solved : Program α model.m model.n → Option (Except Simplex.DeadEnd (Outcome α model.n))) :
    Option (Except (Failure α) (Outcome α model.n)) :=
  match model.validate with
  | .error defect => some (.error (.invalid defect))
  | .ok p => (solved p).map (Except.mapError Failure.deadEnd)

/-- How the attempt on the relaxed model ends. -/
def relaxedEnd (settings : Settings α) (allowance : Allowance) (model : Model α) :
    Option (Except (Failure α) (Outcome α model.n)) :=
  model.ending fun p ↦ (Simplex.run p settings.tolerance allowance.iterations).result

/-- How the attempt on the model with its integrality requirements ends. -/
def searchedEnd (settings : Settings α) (allowance : Allowance) (model : Model α) :
    Option (Except (Failure α) (Outcome α model.n)) :=
  model.ending fun p ↦
    (model.search p settings allowance).result.map (Except.map Search.Finish.outcome)

section Ending

variable {model : Model α}
  (solved : Program α model.m model.n → Option (Except Simplex.DeadEnd (Outcome α model.n)))

theorem ending_of_error {defect : Defect α} (h : model.validate = .error defect) :
    model.ending solved = some (.error (.invalid defect)) := by
  unfold ending
  rw [h]

theorem ending_of_ok {p : Program α model.m model.n} (h : model.validate = .ok p) :
    model.ending solved = (solved p).map (Except.mapError Failure.deadEnd) := by
  unfold ending
  rw [h]

end Ending

theorem endsAs_solveRelaxation (settings : Settings α) (allowance : Allowance) (model : Model α) :
    (model.solveRelaxation settings allowance).EndsAs id
      (model.relaxedEnd settings allowance) := by
  unfold solveRelaxation relaxedEnd ending
  cases model.validate with
  | error defect => exact ⟨rfl, rfl⟩
  | ok p =>
    dsimp only
    cases (Simplex.run p settings.tolerance allowance.iterations).result with
    | none => exact ⟨rfl, rfl⟩
    | some result => cases result <;> exact ⟨rfl, rfl⟩

theorem endsAs_solve (settings : Settings α) (allowance : Allowance) (model : Model α) :
    (model.solve settings allowance).EndsAs Summary.status
      (model.searchedEnd settings allowance) := by
  unfold solve searchedEnd ending search Search.simplexRuns
  cases model.validate with
  | error defect => exact ⟨rfl, rfl⟩
  | ok p =>
    dsimp only
    cases (Search.run _ settings.integrality allowance.nodes p).result with
    | none => exact ⟨rfl, rfl⟩
    | some result => cases result <;> exact ⟨rfl, rfl⟩

end Model

/-! ## Attempts -/

/-- An attempt keeps the problem.  Unless it succeeds it keeps the whole model, and if it does the
model shows the status that is reported. -/
structure Attempt.Writes {model : Model α} {β : Type} (attempt : Attempt model β)
    (status : β → SolutionStatus) : Prop where
  problem : model.SameProblem attempt.after
  failed : ∀ failure, attempt.result = some (.error failure) → attempt.after = model
  unfinished : attempt.result = none → attempt.after = model
  answered : ∀ report, attempt.result = some (.ok report) → attempt.after.Shows (status report)

namespace Attempt.EndsAs

variable {model : Model α} {β : Type} {attempt : Attempt model β} {status : β → SolutionStatus}
  {ended : Option (Except (Failure α) (Outcome α model.n))}

/-- What an attempt reports is the status of the outcome with which it ends. -/
theorem exists_outcome (h : attempt.EndsAs status ended) {report : β}
    (hreport : attempt.result = some (.ok report)) :
    ∃ outcome, ended = some (.ok outcome) ∧ outcome.status = status report := by
  have hresult := h.result
  rw [hreport] at hresult
  match ended, hresult with
  | some (.ok outcome), hresult =>
    have hstatus := Except.ok.inj (Option.some.inj hresult)
    exact ⟨outcome, rfl, hstatus.symm⟩

/-- Without a report there is no outcome, and the model is kept. -/
theorem after_eq (h : attempt.EndsAs status ended)
    (hresult : ∀ report, attempt.result ≠ some (.ok report)) : attempt.after = model := by
  have hmapped := h.result
  rw [h.after]
  match ended, hmapped with
  | none, _ => rfl
  | some (.error _), _ => rfl
  | some (.ok outcome), hmapped =>
    match hattempt : attempt.result, hmapped with
    | some (.ok report), _ => exact absurd hattempt (hresult report)

theorem writes (h : attempt.EndsAs status ended) : attempt.Writes status where
  problem := by
    rw [h.after]
    match ended with
    | none => exact model.sameProblem_refl
    | some (.error _) => exact model.sameProblem_refl
    | some (.ok outcome) => exact model.sameProblem_answered outcome
  failed failure hfailure := h.after_eq fun report hreport ↦ by
    rw [hfailure] at hreport
    cases hreport
  unfinished hnone := h.after_eq fun report hreport ↦ by
    rw [hnone] at hreport
    cases hreport
  answered report hreport := by
    obtain ⟨outcome, rfl, hstatus⟩ := h.exists_outcome hreport
    rw [h.after, ← hstatus]
    exact model.shows_answered outcome

end Attempt.EndsAs

namespace Model

variable [Arithmetic α]

/-! ## Old answers -/

/-- Two attempts report the same, and if they succeed they leave the same model. -/
structure SameAttempt {first second : Model α} {β : Type} (attempt : Attempt first β)
    (other : Attempt second β) : Prop where
  result : other.result = attempt.result
  after : ∀ report, attempt.result = some (.ok report) → other.after = attempt.after

section Stale

variable (settings : Settings α) (allowance : Allowance) (model : Model α)
  (x : Option (List α)) (z : Option α) (status : SolutionStatus)

/-- The check of a model does not look at its answer. -/
theorem validate_withAnswer : (model.withAnswer x z status).validate = model.validate :=
  rfl

theorem sameAttempt_solveRelaxation :
    SameAttempt (model.solveRelaxation settings allowance)
      ((model.withAnswer x z status).solveRelaxation settings allowance) := by
  unfold solveRelaxation
  rw [validate_withAnswer]
  split
  · exact ⟨rfl, nofun⟩
  · dsimp only [withAnswer]
    split
    · exact ⟨rfl, nofun⟩
    · exact ⟨rfl, nofun⟩
    · exact ⟨rfl, fun _ _ ↦ answered_withAnswer model x z status _⟩

theorem sameAttempt_solve :
    SameAttempt (model.solve settings allowance)
      ((model.withAnswer x z status).solve settings allowance) := by
  unfold solve
  rw [validate_withAnswer]
  split
  · exact ⟨rfl, nofun⟩
  · dsimp only [withAnswer]
    split
    · exact ⟨rfl, nofun⟩
    · exact ⟨rfl, nofun⟩
    · exact ⟨rfl, fun _ _ ↦ answered_withAnswer model x z status _⟩

end Stale

/-- An attempt changes nothing but the answer of a model, and changes nothing at all unless it
succeeds; then it reports the status that the model shows from now on.  Neither its report nor the
new answer depends on the answer that the model had before. -/
theorem attempts_write_answers (settings : Settings α) (allowance : Allowance) (model : Model α) :
    (model.solveRelaxation settings allowance).Writes id ∧
      (model.solve settings allowance).Writes Summary.status ∧
      ∀ x z status,
        SameAttempt (model.solveRelaxation settings allowance)
          ((model.withAnswer x z status).solveRelaxation settings allowance) ∧
        SameAttempt (model.solve settings allowance)
          ((model.withAnswer x z status).solve settings allowance) :=
  ⟨(endsAs_solveRelaxation settings allowance model).writes,
    (endsAs_solve settings allowance model).writes,
    fun x z status ↦ ⟨sameAttempt_solveRelaxation settings allowance model x z status,
      sameAttempt_solve settings allowance model x z status⟩⟩

open ExtendedRational

/-- Two variables that must be integral, in a model that still shows the answer to another one.
With tolerance one the search finds a point below the value at which it splits the root, and meets
a dead end above it. -/
def thwarted : Model ExtendedRational :=
  ((Model.ofRows [[finite (-1), finite 1], [finite (-1), finite 2]] [finite 2, finite 5]
      [finite 0, finite 0]).withIntegrality [true, true]).withAnswer
    (some [finite 7]) (some (finite 3)) .optimal

theorem thwarted_keeps_answer :
    (thwarted.solve ⟨finite 1, finite 0⟩ ⟨9, 9⟩).records.filterMap (fun
        | .improved _ z => some z
        | _ => none) = [finite 0] ∧
      (∃ failure,
        (thwarted.solve ⟨finite 1, finite 0⟩ ⟨9, 9⟩).result = some (.error (.deadEnd failure))) ∧
      (thwarted.solve ⟨finite 1, finite 0⟩ ⟨9, 9⟩).after = thwarted ∧
      (thwarted.cleared.solve ⟨finite 1, finite 0⟩ ⟨9, 9⟩).result =
        (thwarted.solve ⟨finite 1, finite 0⟩ ⟨9, 9⟩).result := by
  have hfailed : (thwarted.solve ⟨finite 1, finite 0⟩ ⟨9, 9⟩).result =
      some (.error (.deadEnd ⟨1⟩)) := by
    with_unfolding_all decide
  obtain ⟨-, hwrites, hstale⟩ := attempts_write_answers ⟨finite 1, finite 0⟩ ⟨9, 9⟩ thwarted
  refine ⟨by with_unfolding_all decide, ⟨_, hfailed⟩, hwrites.failed _ hfailed, ?_⟩
  exact (hstale none none .unsolved).2.result

end Model

end MixedInteger
