import MixedInteger.Proofs.Search.Steps
import MixedInteger.Proofs.Simplex.Heads
import MixedInteger.Solver

/-!
# Answers to models

A model with integrality requirements is answered by a search whose relaxations are runs of the
simplex method.  What an attempt reports is how this search ends, the model afterwards shows the
outcome, and the events are reports on nodes that the search reaches.  The search looks the same to
an observer who lets every run take as many iterations as it needs.
-/

namespace MixedInteger

namespace Search

variable {α : Type} [Arithmetic α] {m n : Nat}

/-- Relaxations by the simplex method, with an allowance of iterations for each. -/
def simplexRuns (tolerance : α) (iterations : Nat) : Relaxation α m n := fun _ p ↦
  Simplex.run p tolerance iterations

/-- The results of the simplex method, however long it takes. -/
def bySimplex (tolerance : α) : Solves α m n := fun _ p result ↦
  Simplex.Yields p tolerance result

theorem bySimplex_of_runs {tolerance : α} {iterations number : Nat} {p : Program α m n}
    {result : Simplex.Result α n}
    (h : (simplexRuns tolerance iterations).Solves number p result) :
    bySimplex tolerance number p result :=
  ⟨iterations, h⟩

/-- The states that a search by the simplex method passes through. -/
abbrev Visits (root : Program α m n) (settings : Settings α) : State α m n → Prop :=
  (State.start root).Reaches (bySimplex settings.tolerance) settings.integrality

end Search

namespace Model

open Search

variable {α : Type} [Arithmetic α] {model : Model α} {p : Program α model.m model.n}
  {settings : Settings α} {allowance : Allowance}

/-- The search that answers a model. -/
def search (model : Model α) (p : Program α model.m model.n) (settings : Settings α)
    (allowance : Allowance) : Search.Run α model.m model.n :=
  Search.run (simplexRuns settings.tolerance allowance.iterations) settings.integrality
    allowance.nodes p

/-- An attempt keeps the records of the search. -/
theorem records_solve (hvalid : model.validate = .ok p) :
    (model.solve settings allowance).records = (model.search p settings allowance).records := by
  unfold solve
  rw [hvalid]
  dsimp only
  change _ = (Search.run _ _ _ _).records
  split <;> rfl

/-- An attempt on a valid model succeeds when its search does. -/
theorem result_solve_of_search (hvalid : model.validate = .ok p)
    {finish : Search.Finish α model.n}
    (h : (model.search p settings allowance).result = some (.ok finish)) :
    (model.solve settings allowance).result = some (.ok
      { status := finish.outcome.status, statistics := finish.statistics }) := by
  unfold search simplexRuns at h
  unfold solve
  rw [hvalid]
  dsimp only
  rw [h]

/-- A reported summary is that of a search that has ended, and the model shows its outcome. -/
theorem exists_finish_of_solve (hvalid : model.validate = .ok p) {summary : Summary}
    (h : (model.solve settings allowance).result = some (.ok summary)) :
    ∃ finish : Search.Finish α model.n,
      (model.search p settings allowance).result = some (.ok finish) ∧
      summary = { status := finish.outcome.status, statistics := finish.statistics } ∧
      (model.solve settings allowance).after = model.answered finish.outcome := by
  unfold solve at h ⊢
  rw [hvalid] at h ⊢
  dsimp only at h ⊢
  cases hrun : (model.search p settings allowance).result with
  | none =>
    unfold search simplexRuns at hrun
    rw [hrun] at h
    cases h
  | some result =>
    unfold search simplexRuns at hrun
    rw [hrun] at h ⊢
    cases result with
    | error e => cases h
    | ok finish =>
      cases h
      exact ⟨finish, rfl, rfl, rfl⟩

/-- A search that ends has visited the state in which it does. -/
theorem exists_end_of_search {result : Except Simplex.DeadEnd (Search.Finish α model.n)}
    (h : (model.search p settings allowance).result = some result) :
    ∃ last, Visits p settings last ∧
      last.Ends (bySimplex settings.tolerance) settings.integrality result := by
  obtain ⟨last, hreaches, hends⟩ := Search.State.exists_end h
  exact ⟨last, hreaches.mono fun _ _ _ ↦ bySimplex_of_runs,
    hends.mono fun _ _ _ ↦ bySimplex_of_runs⟩

/-- The summary of an attempt is that of a visited state in which the search ends. -/
theorem exists_end_of_solve (hvalid : model.validate = .ok p) {summary : Summary}
    (h : (model.solve settings allowance).result = some (.ok summary)) :
    ∃ (last : Search.State α model.m model.n) (finish : Search.Finish α model.n),
      Visits p settings last ∧
      last.Ends (bySimplex settings.tolerance) settings.integrality (.ok finish) ∧
      summary = { status := finish.outcome.status, statistics := finish.statistics } ∧
      (model.solve settings allowance).after = model.answered finish.outcome := by
  obtain ⟨finish, hsearch, hsummary, hafter⟩ := exists_finish_of_solve hvalid h
  obtain ⟨last, hvisits, hends⟩ := exists_end_of_search hsearch
  exact ⟨last, finish, hvisits, hends, hsummary, hafter⟩

/-- An optimal answer is the incumbent of a visited state in which no node waits. -/
theorem exists_last_of_optimal (hvalid : model.validate = .ok p) {summary : Summary}
    (h : (model.solve settings allowance).result = some (.ok summary))
    (hoptimal : summary.status = .optimal) :
    ∃ last x, Visits p settings last ∧ last.waiting = [] ∧ last.incumbent.x = some x ∧
      (model.solve settings allowance).after = model.answered (.optimal x last.incumbent.z) := by
  obtain ⟨last, finish, hvisits, hends, rfl, hafter⟩ := exists_end_of_solve hvalid h
  cases hends with
  | finished hwaiting =>
    unfold State.finish at hoptimal hafter
    cases hx : last.incumbent.x with
    | none =>
      rw [hx] at hoptimal
      cases hoptimal
    | some x =>
      rw [hx] at hafter
      exact ⟨last, x, hvisits, hwaiting, hx, hafter⟩
  | unbounded => cases hoptimal

/-- An infeasible answer means that no node waits and no incumbent has been found. -/
theorem exists_last_of_infeasible (hvalid : model.validate = .ok p) {summary : Summary}
    (h : (model.solve settings allowance).result = some (.ok summary))
    (hinfeasible : summary.status = .infeasible) :
    ∃ last, Visits p settings last ∧ last.waiting = [] ∧ last.incumbent.x = none := by
  obtain ⟨last, finish, hvisits, hends, rfl, -⟩ := exists_end_of_solve hvalid h
  cases hends with
  | finished hwaiting =>
    unfold State.finish at hinfeasible
    cases hx : last.incumbent.x with
    | none => exact ⟨last, hvisits, hwaiting, hx⟩
    | some x =>
      rw [hx] at hinfeasible
      cases hinfeasible
  | unbounded => cases hinfeasible

/-- Every event of an attempt is the report on a node that has been visited and solved. -/
theorem exists_report_of_solve (hvalid : model.validate = .ok p)
    {event : Search.NodeEvent α model.n}
    (h : event ∈ (model.solve settings allowance).records.filterMap Record.nodeEvent?) :
    ∃ later node rest outcome, Visits p settings later ∧ later.waiting = node :: rest ∧
      (Simplex.run node.program settings.tolerance allowance.iterations).result =
        some (.ok outcome) ∧
      event = later.report settings.integrality node rest outcome := by
  rw [records_solve hvalid] at h
  obtain ⟨later, node, rest, outcome, hreaches, hwaiting, hsolved, hevent⟩ :=
    Search.State.exists_report h
  exact ⟨later, node, rest, outcome, hreaches.mono fun _ _ _ ↦ bySimplex_of_runs, hwaiting,
    hsolved, hevent⟩

end Model

end MixedInteger
