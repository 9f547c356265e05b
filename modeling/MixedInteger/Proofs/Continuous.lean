import MixedInteger.Proofs.Attempts
import MixedInteger.Proofs.Binary64
import MixedInteger.Proofs.Program.Statement
import MixedInteger.Proofs.Simplex.Bookkeeping

/-!
# Models without integrality requirements

A model in which no variable must be integral can be solved in both ways.  The search then takes up
the root and nothing else, for it has no variable to split, and it ends as the simplex method does,
with the same failure or the same answer.  There is one exception.  A point is accepted only if it
costs less than the incumbent, whose cost is infinite before there is one; so when the cost of the
optimal point overflows, the search drops the point and answers that the model is infeasible.
-/

namespace MixedInteger

open Arithmetic

namespace Search

variable {α : Type} [Arithmetic α] {m n : Nat}

/-! ## Points that are not split -/

/-- Without a flag no value is fractional. -/
theorem mostFractional_of_forall_not {values : List α} {flags : List Bool} (h : true ∉ flags)
    (tolerance : α) : mostFractional values flags tolerance = none := by
  unfold mostFractional
  dsimp only
  generalize hbest : Fin.foldl (values.zip flags).length _ _ = best
  rw [← hbest]
  refine Simplex.foldl_induction
    (fun _ (best : α × Option (Fin (values.zip flags).length)) ↦ best.2 = none) rfl ?_
  intro i best hnone
  have hflag : ((values.zip flags).get i).2 = false := by
    have hmem := (List.of_mem_zip (List.get_mem (values.zip flags) i)).2
    exact Bool.eq_false_iff.2 fun htrue ↦ h (htrue ▸ hmem)
  rw [if_pos (by rw [hflag, Bool.not_false, Bool.true_or])]
  exact hnone

theorem branchingIndex_of_forall_not {integer : Vector Bool n} (h : true ∉ integer.toList)
    (x : Vector α n) (tolerance : α) : branchingIndex x integer tolerance = none := by
  rw [branchingIndex, mostFractional_of_forall_not h]
  rfl

/-- The root of such a search is not split. -/
theorem judge_ne_branched {integer : Vector Bool n} (h : true ∉ integer.toList)
    (tolerance best : α) (outcome : Outcome α n) (k : Fin n) (value : α) :
    judge integer tolerance best outcome ≠ .branched k value := by
  intro hverdict
  obtain ⟨x, z, -, -, hk, -⟩ := exists_optimal_of_judge_branched hverdict
  rw [branchingIndex_of_forall_not h] at hk
  cases hk

/-! ## Searches with one node -/

/-- What is left of an outcome once it had to cost less than the first incumbent. -/
def accepted : Outcome α n → Outcome α n
  | .optimal x z => if z < infinity then .optimal x z else .infeasible
  | outcome => outcome

/-- The end of a search that takes up its root only, by the outcome of the root's relaxation. -/
def rootFinish (root : Program α m n) (tolerance : α) (outcome : Outcome α n) : Finish α n where
  outcome := accepted outcome
  statistics := Statistics.start.count (judge root.integer tolerance infinity outcome) 0

theorem rootFinish_statistics {root : Program α m n} (h : true ∉ root.integer.toList)
    (tolerance : α) (outcome : Outcome α n) :
    (rootFinish root tolerance outcome).statistics.nodes = 1 ∧
      (rootFinish root tolerance outcome).statistics.branched = 0 := by
  refine ⟨Statistics.count_nodes .., ?_⟩
  unfold rootFinish
  cases hverdict : judge root.integer tolerance infinity outcome with
  | branched k value => exact absurd hverdict (judge_ne_branched h _ _ _ _ _)
  | _ => rfl

variable {root : Program α m n} (hflags : true ∉ root.integer.toList)

include hflags

/-- After the root no node waits. -/
theorem waiting_next_root (tolerance : α) (outcome : Outcome α n) :
    ((State.start root).next tolerance ⟨root, 0⟩ [] outcome).waiting = [] := by
  unfold State.next State.after State.verdict
  cases hverdict : judge root.integer tolerance infinity outcome with
  | branched k value => exact absurd hverdict (judge_ne_branched hflags _ _ _ _ _)
  | _ =>
    simp only [State.start, Incumbent.none, hverdict]
    rfl

/-- The search ends with the outcome of the root, if that is accepted. -/
theorem finish_next_root (hgreatest : ∀ z : α, ¬ infinity < z) (tolerance : α)
    {outcome : Outcome α n} (hbounded : outcome ≠ .unbounded) :
    ((State.start root).next tolerance ⟨root, 0⟩ [] outcome).finish =
      rootFinish root tolerance outcome := by
  have hwaiting := waiting_next_root hflags tolerance outcome
  have hstatistics : ((State.start root).next tolerance ⟨root, 0⟩ [] outcome).statistics =
      (rootFinish root tolerance outcome).statistics := by
    change Statistics.start.count _ ((State.start root).next _ _ _ _).waiting.length = _
    rw [hwaiting]
    rfl
  have houtcome : ((State.start root).next tolerance ⟨root, 0⟩ [] outcome).finish.outcome =
      accepted outcome := by
    cases outcome with
    | infeasible => rfl
    | unbounded => exact absurd rfl hbounded
    | optimal x z =>
      have hverdict : judge root.integer tolerance infinity (.optimal x z) =
          .integral (decide (z < infinity)) := by
        simp only [judge, if_neg (hgreatest z), branchingIndex_of_forall_not hflags]
      by_cases hz : z < infinity
      · simp only [State.finish, State.next, State.after, State.verdict, State.start,
          Incumbent.none, hverdict, Incumbent.after, accepted, decide_true, hz, if_pos]
      · simp only [State.finish, State.next, State.after, State.verdict, State.start,
          Incumbent.none, hverdict, Incumbent.after, accepted, decide_false, hz, if_neg,
          not_false_eq_true]
  exact congrArg₂ Finish.mk houtcome hstatistics

/-- The search ends as the relaxation of its root does. -/
theorem run_of_forall_not (hgreatest : ∀ z : α, ¬ infinity < z) (relax : Relaxation α m n)
    (tolerance : α) {allowance : Nat} (hnodes : 0 < allowance) :
    (run relax tolerance allowance root).result =
      (relax 1 root).result.map (Except.map (rootFinish root tolerance)) := by
  obtain ⟨allowance, rfl⟩ := Nat.exists_eq_succ_of_ne_zero hnodes.ne'
  have hroot : (State.start root).waiting = [⟨root, 0⟩] := rfl
  cases hsolved : (relax 1 root).result with
  | none => simp only [run, State.run, State.start, Statistics.start, hsolved, Option.map_none]
  | some result =>
    cases result with
    | error e =>
      simp only [run, State.run, State.start, Statistics.start, hsolved, Option.map_some,
        Except.map]
    | ok outcome =>
      have hrelaxed : relax.Solves 1 root (.ok outcome) := hsolved
      by_cases hbounded : outcome = .unbounded
      · subst hbounded
        rw [run, State.run_of_unbounded hroot hrelaxed]
        rfl
      · rw [run, State.run_of_next hroot hrelaxed hbounded,
          State.run_of_finished (waiting_next_root hflags tolerance outcome),
          finish_next_root hflags hgreatest tolerance hbounded]
        rfl

end Search

/-! ## Attempts on such models -/

namespace Model

open Search

/-- The two attempts report the same, be it a failure or a status, and leave the same model. -/
structure Agree {α : Type} {model : Model α} (relaxed : Attempt model SolutionStatus)
    (searched : Attempt model Summary) : Prop where
  result : searched.result.map (Except.map Summary.status) = relaxed.result
  after : searched.after = relaxed.after

section Attempts

variable {α : Type} [Arithmetic α] {model : Model α} {p : Program α model.m model.n}
  (settings : Settings α) (allowance : Allowance)

theorem toList_integer (hvalid : model.validate = .ok p) : p.integer.toList = model.integer := by
  have hmodel := model_of_validate hvalid
  exact congrArg Model.integer hmodel

/-- An outcome of the relaxed model is one of the run on its program. -/
theorem relaxedEnd_eq_ok_iff (hvalid : model.validate = .ok p) {outcome : Outcome α model.n} :
    model.relaxedEnd settings allowance = some (.ok outcome) ↔
      (Simplex.run p settings.tolerance allowance.iterations).result = some (.ok outcome) := by
  rw [relaxedEnd, ending_of_ok _ hvalid]
  cases (Simplex.run p settings.tolerance allowance.iterations).result with
  | none => simp
  | some result => cases result <;> simp [Except.mapError]

/-- If one of two attempts drops the points that do not cost less than infinity, then they agree
exactly when nothing is dropped. -/
theorem agree_iff_of_endsAs {relaxed : Attempt model SolutionStatus}
    {searched : Attempt model Summary} {ended : Option (Except (Failure α) (Outcome α model.n))}
    (hrelaxed : relaxed.EndsAs id ended)
    (hsearched : searched.EndsAs Summary.status (ended.map (Except.map accepted))) :
    Agree relaxed searched ↔ ∀ x z, ended = some (.ok (.optimal x z)) → z < infinity := by
  have hreport : relaxed.result = ended.map (Except.map Outcome.status) := by
    rw [← hrelaxed.result, Except.map_id, Option.map_id]
    rfl
  constructor
  · rintro hagree x z rfl
    by_contra hz
    have hstatus := hsearched.result.symm.trans (hagree.result.trans hreport)
    simp [Except.map, accepted, hz, Outcome.status] at hstatus
  · intro hbelow
    have hkept : ended.map (Except.map accepted) = ended := by
      cases ended with
      | none => rfl
      | some result =>
        cases result with
        | error _ => rfl
        | ok outcome =>
          cases outcome with
          | optimal x z =>
            simp only [Option.map_some, Except.map, accepted, if_pos (hbelow x z rfl)]
          | infeasible => rfl
          | unbounded => rfl
    rw [hkept] at hsearched
    exact ⟨hsearched.result.trans hreport.symm, hsearched.after.trans hrelaxed.after.symm⟩

variable (hvalid : model.validate = .ok p) (hflags : true ∉ model.integer)
  (hgreatest : ∀ z : α, ¬ infinity < z) (hnodes : 0 < allowance.nodes)

include hvalid hflags hgreatest hnodes

/-- The search for a model without integrality requirements is over after the root. -/
theorem search_of_forall_not : (model.search p settings allowance).result =
    (Simplex.run p settings.tolerance allowance.iterations).result.map
      (Except.map (rootFinish p settings.integrality)) := by
  rw [← toList_integer hvalid] at hflags
  exact run_of_forall_not hflags hgreatest (simplexRuns settings.tolerance allowance.iterations)
    settings.integrality hnodes

/-- The search ends as the relaxed model does, if the point is accepted. -/
theorem searchedEnd_of_forall_not : model.searchedEnd settings allowance =
    (model.relaxedEnd settings allowance).map (Except.map accepted) := by
  rw [searchedEnd, relaxedEnd, ending_of_ok _ hvalid, ending_of_ok _ hvalid,
    search_of_forall_not settings allowance hvalid hflags hgreatest hnodes]
  cases (Simplex.run p settings.tolerance allowance.iterations).result with
  | none => rfl
  | some result => cases result <;> rfl

theorem statistics_of_forall_not {summary : Summary}
    (h : (model.solve settings allowance).result = some (.ok summary)) :
    summary.statistics.nodes = 1 ∧ summary.statistics.branched = 0 := by
  obtain ⟨finish, hsearch, rfl, -⟩ := exists_finish_of_solve hvalid h
  rw [search_of_forall_not settings allowance hvalid hflags hgreatest hnodes] at hsearch
  rw [← toList_integer hvalid] at hflags
  cases hrun : (Simplex.run p settings.tolerance allowance.iterations).result with
  | none =>
    rw [hrun] at hsearch
    cases hsearch
  | some result =>
    rw [hrun] at hsearch
    cases result with
    | error e => cases hsearch
    | ok outcome =>
      cases hsearch
      exact rootFinish_statistics hflags settings.integrality outcome

end Attempts

/-- In floating-point arithmetic, both ways to solve a model without integrality requirements agree
exactly if the cost of the optimal point, should there be one, is a number below infinity.  If it
is not, the search reports that the model is infeasible. -/
theorem continuous_agree_iff {model : Model Float} {p : Program Float model.m model.n}
    {settings : Settings Float} {allowance : Allowance} (hvalid : model.validate = .ok p)
    (hflags : true ∉ model.integer) (hnodes : 0 < allowance.nodes) :
    (Agree (model.solveRelaxation settings allowance) (model.solve settings allowance) ↔
      ∀ x z, (Simplex.run p settings.tolerance allowance.iterations).result =
        some (.ok (.optimal x z)) → z < infinity) ∧
    (∀ summary, (model.solve settings allowance).result = some (.ok summary) →
      summary.statistics.nodes = 1 ∧ summary.statistics.branched = 0) ∧
    ∀ x z, (Simplex.run p settings.tolerance allowance.iterations).result =
        some (.ok (.optimal x z)) →
      z = p.cost x ∧
      (model.solveRelaxation settings allowance).after = model.answered (.optimal x z) ∧
      (¬ z < infinity →
        (model.solve settings allowance).after = model.answered (n := model.n) .infeasible) := by
  have hrelaxed := endsAs_solveRelaxation settings allowance model
  have hsearched := endsAs_solve settings allowance model
  rw [searchedEnd_of_forall_not settings allowance hvalid hflags Binary64.not_infinity_lt hnodes]
    at hsearched
  have hagree := agree_iff_of_endsAs hrelaxed hsearched
  simp only [relaxedEnd_eq_ok_iff settings allowance hvalid] at hagree
  refine ⟨hagree, fun summary hsummary ↦
    statistics_of_forall_not settings allowance hvalid hflags Binary64.not_infinity_lt hnodes
      hsummary,
    fun x z hrun ↦ ?_⟩
  have hended := (relaxedEnd_eq_ok_iff settings allowance hvalid).2 hrun
  refine ⟨?_, ?_, fun hz ↦ ?_⟩
  · obtain ⟨last, event, -, hends, -⟩ := Simplex.State.exists_last_head hrun
    cases hends
    rfl
  · rw [hrelaxed.after, hended]
    rfl
  · rw [hsearched.after, hended]
    simp only [Option.map_some, Except.map, accepted, if_neg hz, afterwards]

/-- One variable, which is `1` and costs as much. -/
def fixedUnit : Model Float :=
  Model.ofRows [[1]] [1] [1]

theorem fixedUnit_defect? : fixedUnit.defect? = none :=
  Option.isNone_iff_eq_none.1 (by decide)

theorem fixedUnit_agree :
    (∃ p, fixedUnit.validate = .ok p) ∧ true ∉ fixedUnit.integer ∧
      Agree (fixedUnit.solveRelaxation .standard ⟨9, 9⟩) (fixedUnit.solve .standard ⟨9, 9⟩) ∧
      (fixedUnit.solve .standard ⟨9, 9⟩).after.status = .optimal := by
  have hvalid := validate_of_defect?_eq_none fixedUnit_defect?
  have hflags : true ∉ fixedUnit.integer := by decide
  have hbelow : ∀ z, (fixedUnit.solveRelaxation .standard ⟨9, 9⟩).after.z = some z →
      z < infinity := by
    have hall : (fixedUnit.solveRelaxation .standard ⟨9, 9⟩).after.z.all
        (fun z ↦ decide (z < infinity)) = true := by
      decide +kernel
    intro z hz
    rw [hz] at hall
    exact of_decide_eq_true hall
  obtain ⟨hagree, -, hoptimal⟩ :=
    @continuous_agree_iff fixedUnit _ .standard ⟨9, 9⟩ hvalid hflags (by decide)
  refine ⟨⟨_, hvalid⟩, hflags, hagree.2 fun x z hrun ↦ hbelow z ?_, by decide +kernel⟩
  rw [(hoptimal x z hrun).2.1]
  rfl

/-- One variable, which is `2 ^ 600` and costs `2 ^ 600` times as much. -/
def overflowing : Model Float :=
  Model.ofRows [[1]] [Float.ofBits 0x6570000000000000] [Float.ofBits 0x6570000000000000]

theorem overflowing_defect? : overflowing.defect? = none :=
  Option.isNone_iff_eq_none.1 (by decide)

/-- The only point of the model is optimal for one way to solve it, and for the other the model is
infeasible. -/
theorem not_continuous_agree :
    ¬ ∀ (model : Model Float) (p : Program Float model.m model.n) (settings : Settings Float)
      (allowance : Allowance), model.validate = .ok p → true ∉ model.integer →
      0 < allowance.nodes →
      Agree (model.solveRelaxation settings allowance) (model.solve settings allowance) := by
  intro h
  have hagree := h overflowing _ .standard ⟨9, 9⟩ (validate_of_defect?_eq_none overflowing_defect?)
    (by decide) (by decide)
  have hrelaxed : (overflowing.solveRelaxation .standard ⟨9, 9⟩).after.status = .optimal := by
    decide +kernel
  have hsearched : (overflowing.solve .standard ⟨9, 9⟩).after.status = .infeasible := by
    decide +kernel
  rw [hagree.after, hrelaxed] at hsearched
  cases hsearched

end Model

end MixedInteger
