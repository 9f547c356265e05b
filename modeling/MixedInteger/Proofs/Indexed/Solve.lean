import MixedInteger.Arithmetic.Exact
import MixedInteger.Proofs.Attempts
import MixedInteger.Proofs.Indexed.Run

/-!
# Models solved on lists

The check of a model, the two ways to solve it and the search tree, on the lists of the model and of
its nodes and with every access checked.  The check comes first and makes sure of all lengths before
it reads the bounds by index; from then on lengths never change, and every index is below one of
them.  So whatever a model holds, and for all tolerances, no access leaves its list, and the results
are those of the attempts on programs of vectors.
-/

namespace MixedInteger

namespace Indexed

open Arithmetic

variable {α : Type} [Arithmetic α]

/-! ## The check of a model -/

/-- The defects found without reading any list by index. -/
def shapeDefect? (model : Model α) : Option (Defect α) :=
  (if model.A.length ≠ model.m then some (.rowCount model.A.length model.m) else none)
  |>.or (model.A.zipIdx.findSome? fun (row, i) ↦ Model.rowDefect? model.n row i)
  |>.or (Model.partDefect? .rightHandSide model.b.length model.m)
  |>.or (Model.partDefect? .cost model.c.length model.n)
  |>.or (Model.partDefect? .lowerBound model.lower.length model.n)
  |>.or (Model.partDefect? .upperBound model.upper.length model.n)
  |>.or (Model.partDefect? .integrality model.integer.length model.n)
  |>.or ((model.b.findIdx? fun a ↦ !isFinite a).map .rightHandSide)
  |>.or ((model.c.findIdx? fun a ↦ !isFinite a).map .cost)

/-- The first defect among the bounds, variable by variable; none is read after it. -/
def boundsDefect? (model : Model α) : Option (Option (Defect α)) :=
  loop model.n
    (fun found j ↦
      match found with
      | some defect => some (some defect)
      | none => do
        let lower ← model.lower[j]?
        let upper ← model.upper[j]?
        some (Model.boundDefect? lower upper j))
    none

/-- The first defect of a model. -/
def defect? (model : Model α) : Option (Option (Defect α)) :=
  match shapeDefect? model with
  | some defect => some (some defect)
  | none => boundsDefect? model

/-! ## Attempts -/

/-- The status that an answer establishes. -/
def Answer.status : Answer α → SolutionStatus
  | .optimal _ _ => .optimal
  | .infeasible => .infeasible
  | .unbounded => .unbounded

/-- The model with the answer in place of whatever answer it had. -/
def answered (model : Model α) : Answer α → Model α
  | .optimal x z => { model with x := some x, z := some z, status := .optimal }
  | .infeasible => { model with x := none, z := none, status := .infeasible }
  | .unbounded => { model with x := none, z := none, status := .unbounded }

/-- The model after an attempt and the status it reports, from the result of the attempt. -/
def conclude (model : Model α) :
    Option (Except Simplex.DeadEnd (Answer α)) →
      Model α × Option (Except (Failure α) SolutionStatus)
  | none => (model, none)
  | some (.error e) => (model, some (.error (.deadEnd e)))
  | some (.ok answer) => (answered model answer, some (.ok answer.status))

/-- An attempt: the check of the model comes first, and the result is only asked for if the model is
valid. -/
def attempt (model : Model α)
    (result : Option (Option (Except Simplex.DeadEnd (Answer α)))) :
    Option (Model α × Option (Except (Failure α) SolutionStatus)) := do
  match ← defect? model with
  | some defect => some (model, some (.error (.invalid defect)))
  | none => result.map (conclude model)

/-- Solves a model as if nothing had to be integral. -/
def solveRelaxation (settings : Settings α) (allowance : Allowance) (model : Model α) :
    Option (Model α × Option (Except (Failure α) SolutionStatus)) :=
  attempt model (run model settings.tolerance allowance.iterations)

/-- The nodes that wait and the incumbent. -/
structure Worklist (α : Type) where
  waiting : List (Model α)
  z : α
  x : Option (List α)

namespace Worklist

/-- The search once none waits. -/
def finish (work : Worklist α) : Answer α :=
  match work.x with
  | some x => .optimal x work.z
  | none => .infeasible

/-- The search after an optimal node: it is dropped, it may improve on the incumbent, or it is split
at the value of a variable, which is read by index. -/
def afterOptimal (integrality : α) (work : Worklist α) (node : Model α) (rest : List (Model α))
    (x : List α) (z : α) : Option (Worklist α) :=
  if work.z < z then some { work with waiting := rest }
  else
    match Search.mostFractional x node.integer integrality with
    | none =>
      some (if z < work.z then { waiting := rest, z := z, x := some x }
        else { work with waiting := rest })
    | some k => do
      let value ← x[k.val]?
      let below ← node.tightened? k.val value .down
      let above ← node.tightened? k.val value .up
      some { work with waiting := rest ++ [below, above] }

/-- The result of the search, unless an allowance is spent before there is one. -/
def run (settings : Settings α) (iterations : Nat) (allowance : Nat) (work : Worklist α) :
    Option (Option (Except Simplex.DeadEnd (Answer α))) :=
  match allowance, work.waiting with
  | _, [] => some (some (.ok work.finish))
  | 0, _ :: _ => some none
  | allowance + 1, node :: rest => do
    match ← Indexed.run node settings.tolerance iterations with
    | none => some none
    | some (.error e) => some (some (.error e))
    | some (.ok .unbounded) => some (some (.ok .unbounded))
    | some (.ok .infeasible) =>
      run settings iterations allowance { work with waiting := rest }
    | some (.ok (.optimal x z)) =>
      let work ← work.afterOptimal settings.integrality node rest x z
      work.run settings iterations allowance

end Worklist

/-- Solves a model with its integrality requirements. -/
def solve (settings : Settings α) (allowance : Allowance) (model : Model α) :
    Option (Model α × Option (Except (Failure α) SolutionStatus)) :=
  attempt model
    (Worklist.run settings allowance.iterations allowance.nodes
      { waiting := [model.cleared], z := infinity, x := none })

/-! ## The check in range -/

theorem boundsDefect?_eq (model : Model α) (hlower : model.lower.length = model.n)
    (hupper : model.upper.length = model.n) :
    boundsDefect? model = some ((model.lower.zip model.upper).zipIdx.findSome?
      fun ((lower, upper), j) ↦ Model.boundDefect? lower upper j) := by
  have hlength : (model.lower.zip model.upper).length = model.n := by
    rw [List.length_zip, hlower, hupper, min_self]
  -- after `i` variables the loop holds the first defect among them
  let found (i : Nat) : Option (Defect α) :=
    ((model.lower.zip model.upper).take i).zipIdx.findSome?
      fun ((lower, upper), j) ↦ Model.boundDefect? lower upper j
  have hall : found model.n = (model.lower.zip model.upper).zipIdx.findSome?
      fun ((lower, upper), j) ↦ Model.boundDefect? lower upper j := by
    simp only [found]
    rw [List.take_of_length_le hlength.le]
  rw [← hall]
  refine loop_eq found fun i hi ↦ ?_
  have hzip : i < (model.lower.zip model.upper).length := hlength.symm ▸ hi
  have hfirst : i < model.lower.length := hlower.symm ▸ hi
  have hsecond : i < model.upper.length := hupper.symm ▸ hi
  have hnext : found (i + 1) =
      (found i).or (Model.boundDefect? model.lower[i] model.upper[i] i) := by
    simp only [found]
    rw [List.take_succ_eq_append_getElem hzip, List.zipIdx_append, List.findSome?_append,
      List.length_take, Nat.min_eq_left hzip.le]
    simp
  rw [hnext]
  cases found i with
  | some defect => rfl
  | none =>
    rw [List.getElem?_eq_getElem hfirst, List.getElem?_eq_getElem hsecond]
    rfl

theorem lengths_of_shapeDefect?_eq_none {model : Model α} (h : shapeDefect? model = none) :
    model.lower.length = model.n ∧ model.upper.length = model.n := by
  simp only [shapeDefect?, Option.or_eq_none_iff, Model.partDefect?_eq_none] at h
  obtain ⟨⟨⟨⟨⟨-, lower⟩, upper⟩, -⟩, -⟩, -⟩ := h
  exact ⟨lower, upper⟩

/-- The check of a model never leaves a list, whatever the model holds. -/
theorem defect?_eq (model : Model α) : defect? model = some model.defect? := by
  have hsplit : model.defect? = (shapeDefect? model).or
      ((model.lower.zip model.upper).zipIdx.findSome?
        fun ((lower, upper), j) ↦ Model.boundDefect? lower upper j) := rfl
  rw [hsplit]
  unfold defect?
  cases hshape : shapeDefect? model with
  | some defect => rfl
  | none =>
    obtain ⟨hlower, hupper⟩ := lengths_of_shapeDefect?_eq_none hshape
    exact boundsDefect?_eq model hlower hupper

/-! ## Attempts in range -/

/-- An attempt on a model that is not valid ends with the check. -/
theorem attempt_of_error {model : Model α} {defect : Defect α}
    (h : model.validate = .error defect)
    (result : Option (Option (Except Simplex.DeadEnd (Answer α)))) :
    attempt model result = some (model, some (.error (.invalid defect))) := by
  unfold attempt
  rw [defect?_eq]
  unfold Model.validate at h
  split at h
  · rename_i hdefect
    cases h
    rw [hdefect]
    rfl
  · cases h

theorem attempt_of_ok {model : Model α} {p : Program α model.m model.n}
    (h : model.validate = .ok p)
    (result : Option (Option (Except Simplex.DeadEnd (Answer α)))) :
    attempt model result = result.map (conclude model) := by
  unfold attempt
  rw [defect?_eq]
  unfold Model.validate at h
  split at h
  · cases h
  · rename_i hdefect
    rw [hdefect]
    rfl

omit [Arithmetic α] in
/-- A result that is told on lists is the end of the attempt with the same result. -/
theorem conclude_of_endsAs {model : Model α} {β : Type} {attempt : Attempt model β}
    {status : β → SolutionStatus} {result : Option (Except Simplex.DeadEnd (Outcome α model.n))}
    (h : attempt.EndsAs status (result.map (Except.mapError Failure.deadEnd))) :
    conclude model (result.map (Except.map answer)) =
      (attempt.after, attempt.result.map (Except.map status)) := by
  rw [h.after, h.result]
  match result with
  | none => rfl
  | some (.error _) => rfl
  | some (.ok .infeasible) => rfl
  | some (.ok .unbounded) => rfl
  | some (.ok (.optimal _ _)) => rfl

/-- An attempt on lists that solves the same programs ends in the same way. -/
theorem attempt_of_endsAs {model : Model α} {β : Type} {attempt : Attempt model β}
    {status : β → SolutionStatus}
    {solved : Program α model.m model.n → Option (Except Simplex.DeadEnd (Outcome α model.n))}
    (h : attempt.EndsAs status (model.ending solved))
    {result : Option (Option (Except Simplex.DeadEnd (Answer α)))}
    (hsolved : ∀ p, model.validate = .ok p →
      result = some ((solved p).map (Except.map answer))) :
    Indexed.attempt model result =
      some (attempt.after, attempt.result.map (Except.map status)) := by
  cases hvalid : model.validate with
  | error defect =>
    rw [Model.ending_of_error solved hvalid] at h
    rw [attempt_of_error hvalid, h.after, h.result]
    rfl
  | ok p =>
    rw [Model.ending_of_ok solved hvalid] at h
    rw [attempt_of_ok hvalid, hsolved p hvalid, Option.map_some, conclude_of_endsAs h]

/-- The run on a valid model is the run on its program. -/
theorem run_of_validate {model : Model α} {p : Program α model.m model.n}
    (h : model.validate = .ok p) (tolerance : α) (allowance : Nat) :
    run model tolerance allowance =
      some ((Simplex.run p tolerance allowance).result.map (Except.map answer)) := by
  rw [← run_cleared, ← Model.model_of_validate h]
  exact run_model p tolerance allowance

/-- No access of a relaxed attempt leaves its list. -/
theorem solveRelaxation_eq (settings : Settings α) (allowance : Allowance) (model : Model α) :
    solveRelaxation settings allowance model =
      some ((model.solveRelaxation settings allowance).after,
        (model.solveRelaxation settings allowance).result) := by
  have hattempt := attempt_of_endsAs (model.endsAs_solveRelaxation settings allowance)
    fun p hvalid ↦ run_of_validate hvalid settings.tolerance allowance.iterations
  rw [Except.map_id, Option.map_id] at hattempt
  exact hattempt

/-! ## The search in range -/

namespace Worklist

variable {m n : Nat} {settings : Settings α} {iterations : Nat}

/-- The state of a search, with the models of the programs that wait. -/
def ofState (state : Search.State α m n) : Worklist α where
  waiting := state.waiting.map fun node ↦ node.program.model
  z := state.incumbent.z
  x := state.incumbent.x.map Vector.toList

omit [Arithmetic α] in
theorem finish_ofState (state : Search.State α m n) :
    (ofState state).finish = answer state.finish.outcome := by
  unfold finish ofState Search.State.finish
  cases state.incumbent.x <;> rfl

/-- The index at which a point is split is in range, and both children have models. -/
theorem afterOptimal_ofState (integrality : α) (state : Search.State α m n)
    (node : Search.Node α m n) (rest : List (Search.Node α m n)) (x : Vector α n) (z : α) :
    (ofState state).afterOptimal integrality node.program.model
        (rest.map fun node ↦ node.program.model) x.toList z =
      some (ofState (state.next integrality node rest (.optimal x z))) := by
  unfold afterOptimal Search.State.next Search.State.verdict
  obtain ⟨hbest, hverdict⟩ | ⟨hbest, k, hk, hverdict⟩ | ⟨hbest, hk, hverdict⟩ :=
    Search.judge_optimal_cases node.program.integer integrality state.incumbent.z x z
  · rw [hverdict, if_pos (show (ofState state).z < z from hbest)]
    simp [ofState, Search.State.after, Search.Node.children, Search.Incumbent.after]
  · obtain ⟨i, hi, hik⟩ := Option.map_eq_some_iff.1 hk
    have hindex : i.val = k.val := congrArg Fin.val hik
    have hsplit : Search.mostFractional x.toList node.program.model.integer integrality =
        some i := hi
    rw [hverdict, if_neg (show ¬ (ofState state).z < z from hbest), hsplit]
    dsimp only
    rw [hindex, read_toList]
    simp only [Option.bind_eq_bind, Option.bind_some, Program.tightened?_model]
    simp [ofState, Search.State.after, Search.Node.children, Search.Node.child,
      Search.Incumbent.after]
  · have hwhole : Search.mostFractional x.toList node.program.model.integer integrality = none :=
      Option.map_eq_none_iff.1 hk
    rw [hverdict, if_neg (show ¬ (ofState state).z < z from hbest), hwhole]
    by_cases hz : z < state.incumbent.z
    · simp [ofState, Search.State.after, Search.Node.children, Search.Incumbent.after, hz]
    · simp [ofState, Search.State.after, Search.Node.children, Search.Incumbent.after, hz]

omit [Arithmetic α] in
theorem waiting_ofState {state : Search.State α m n} {node : Search.Node α m n}
    {rest : List (Search.Node α m n)} (h : state.waiting = node :: rest) :
    (ofState state).waiting = node.program.model :: rest.map fun node ↦ node.program.model := by
  rw [ofState, h, List.map_cons]

/-- The run on the next node, from the result of its relaxation. -/
theorem run_node {node : Search.Node α m n} {number : Nat}
    {result : Option (Simplex.Result α n)}
    (h : (Search.simplexRuns settings.tolerance iterations number node.program).result = result) :
    Indexed.run node.program.model settings.tolerance iterations =
      some (result.map (Except.map answer)) := by
  rw [← h]
  exact run_model node.program settings.tolerance iterations

/-- No access of a search leaves its list, neither at the root nor at any later node. -/
theorem run_ofState (settings : Settings α) (iterations : Nat) (state : Search.State α m n)
    (allowance : Nat) :
    (ofState state).run settings iterations allowance =
      some ((state.run (Search.simplexRuns settings.tolerance iterations)
        settings.integrality allowance).result.map
          (Except.map fun finish ↦ answer finish.outcome)) := by
  induction allowance using Nat.strongRecOn generalizing state with
  | ind allowance ih =>
    have hunfolds := Search.State.unfolds_run
      (Search.simplexRuns settings.tolerance iterations) settings.integrality state allowance
    generalize state.run (Search.simplexRuns settings.tolerance iterations)
      settings.integrality allowance = run at hunfolds ⊢
    unfold Worklist.run
    cases hunfolds with
    | finished _ hwaiting =>
      have hnone : (ofState state).waiting = [] := by
        rw [ofState, hwaiting, List.map_nil]
      rw [hnone]
      dsimp only
      rw [finish_ofState]
      rfl
    | spent node rest hwaiting =>
      rw [waiting_ofState hwaiting]
      rfl
    | unsolved allowance node rest hwaiting hunsolved =>
      rw [waiting_ofState hwaiting]
      dsimp only
      rw [run_node hunsolved]
      rfl
    | deadEnd allowance node rest deadEnd hwaiting hsolved =>
      rw [waiting_ofState hwaiting]
      dsimp only
      rw [run_node hsolved]
      rfl
    | unbounded allowance node rest hwaiting hsolved =>
      rw [waiting_ofState hwaiting]
      dsimp only
      rw [run_node hsolved]
      rfl
    | next allowance node rest outcome hwaiting hsolved hbounded =>
      have hnext := ih allowance (Nat.lt_succ_self allowance)
        (state.next settings.integrality node rest outcome)
      rw [waiting_ofState hwaiting]
      dsimp only
      rw [run_node hsolved]
      cases outcome with
      | unbounded => exact absurd rfl hbounded
      | infeasible =>
        have hafter : ({ ofState state with waiting := rest.map fun node ↦ node.program.model } :
            Worklist α) = ofState (state.next settings.integrality node rest .infeasible) := by
          simp [ofState, Search.State.next, Search.State.after, Search.State.verdict,
            Search.judge, Search.Node.children, Search.Incumbent.after]
        rw [← hafter] at hnext
        exact hnext
      | optimal x z =>
        rw [← hnext]
        exact congrArg (Option.bind · _) (afterOptimal_ofState ..)

end Worklist

/-- No access of an attempt with integrality requirements leaves its list. -/
theorem solve_eq (settings : Settings α) (allowance : Allowance) (model : Model α) :
    solve settings allowance model =
      some ((model.solve settings allowance).after,
        (model.solve settings allowance).result.map (Except.map Summary.status)) := by
  refine attempt_of_endsAs (model.endsAs_solve settings allowance) fun p hvalid ↦ ?_
  have hstart : ({ waiting := [model.cleared], z := infinity, x := none } : Worklist α) =
      Worklist.ofState (Search.State.start p) := by
    rw [← Model.model_of_validate hvalid]
    rfl
  rw [hstart, Worklist.run_ofState, Option.map_map]
  unfold Model.search Search.run
  cases ((Search.State.start p).run _ settings.integrality allowance.nodes).result with
  | none => rfl
  | some result => cases result <;> rfl

/-- Whatever a model holds, and for all tolerances and allowances, the check of the model and both
ways to solve it stay within their lists, and they do what is done with vectors. -/
theorem accesses_in_range (settings : Settings α) (allowance : Allowance) (model : Model α) :
    defect? model = some model.defect? ∧
      solveRelaxation settings allowance model =
        some ((model.solveRelaxation settings allowance).after,
          (model.solveRelaxation settings allowance).result) ∧
      solve settings allowance model =
        some ((model.solve settings allowance).after,
          (model.solve settings allowance).result.map (Except.map Summary.status)) :=
  ⟨defect?_eq model, solveRelaxation_eq settings allowance model,
    solve_eq settings allowance model⟩

/-- A model whose second row is too short. -/
def ragged : Model ExtendedRational :=
  Model.ofRows [[.finite 1, .finite 1], [.finite 1]] [.finite 1, .finite 1] [.finite 0, .finite 0]

/-- Without the check of the model, a run on it reads outside the row. -/
example : (run ragged (.finite 0) 9).isNone = true ∧
    (solveRelaxation ⟨.finite 0, .finite 0⟩ ⟨9, 9⟩ ragged).isSome = true := by
  decide

end Indexed

end MixedInteger
