import MixedInteger.Proofs.BasicSolution
import MixedInteger.Proofs.PrimalBounds
import MixedInteger.Proofs.Program.Statement
import MixedInteger.Proofs.Simplex.Level

/-!
# Improvement within a phase

Every iteration in which a variable enters and moves changes the objective of its phase by the
product of its score, which is below the negated tolerance, and its step, whatever the tolerance and
whether or not bounds cross.  With tolerance zero no step on a valid program is negative, and so the
objective of a phase never rises, and falls with every positive step.
-/

namespace MixedInteger

open Arithmetic ExtendedRational

namespace Simplex

section Objective

variable {m n : ℕ} {p : Program ExtendedRational m n} {τ : ℚ}

/-- What the iteration in which variable `s` enters does to the objective of its phase, which was
`f` before, with score `σ` and step `ρ`. -/
structure State.Improves (state : State ExtendedRational m n) (p : Program ExtendedRational m n)
    (τ : ℚ) (s : Fin n) (f σ ρ : ℚ) (event : Event ExtendedRational m n)
    (next : State ExtendedRational m n) : Prop where
  step : (state.limit p (finite τ) s).step = finite ρ
  event : event = .pivot (state.iterations + 1) state.phase s
    (state.limit p (finite τ) s).leaving (finite ρ)
  phase : next.phase = state.phase
  score : state.tableau.score (state.tableau.reducedCosts p state.phase) s = finite σ
  below : σ < -τ
  before : state.tableau.objective p state.phase = finite f
  after : next.tableau.objective p state.phase = finite (f + σ * ρ)

/-- An iteration in which a variable enters changes the objective by the product of score and step;
the step is not negative if the tolerance is zero and the point within bounds. -/
theorem exists_improves (hp : p.Admissible) (hτ : 0 ≤ τ) {allowance : ℕ}
    {state next : State ExtendedRational m n} (hstate : state ∈ heads p (finite τ) allowance)
    {s : Fin n} (hentering : state.entering? p (finite τ) = some s)
    {event : Event ExtendedRational m n} (h : state.advance p (finite τ) = .next event next) :
    ∃ f σ ρ, state.Improves p τ s f σ ρ event next ∧
      (p.Valid → state.tableau.Bounded p → 0 ≤ ρ) := by
  have hexact := exact_of_mem_heads hp hτ hstate
  have hconsistent := consistent_of_mem_heads (entersNonbasic p hτ) hstate
  have hnext := (State.continues_of_advance h).exact hp hτ hexact
  obtain ⟨ρ, henters⟩ := State.exists_enters hp hτ hexact.toRational hentering h
  refine ⟨_, _, ρ, ⟨henters.step, henters.event, henters.phase, Tableau.score_eq hp hexact.toRational _ s,
    State.score_of_entering_some hp hexact.toRational hentering,
    Tableau.objective_eq hp hexact.toRational _, ?_⟩, fun hvalid hbounded ↦ ?_⟩
  · rw [Tableau.objective_eq hp hnext.toRational,
      henters.cost_point hp hτ hexact hconsistent hentering]
  · exact henters.attains.step_nonneg hvalid hτ hexact.toRational hbounded

/-- With tolerance zero the objective of a phase never rises, and falls after a positive step. -/
theorem pairwise_objective (hp : p.Valid) (allowance : ℕ) :
    (heads p (finite 0) allowance).Pairwise fun head later ↦ later.phase = head.phase →
      later.tableau.objective p head.phase ≤ head.tableau.objective p head.phase ∧
        (head.lengthens p head.phase = true →
          later.tableau.objective p head.phase < head.tableau.objective p head.phase) := by
  refine (State.pairwise_level hp (State.start_proper hp) allowance).imp_of_mem ?_
  intro head later hhead hlater hlevels hphase
  have hrational {state : State ExtendedRational m n}
      (hstate : state ∈ heads p (finite 0) allowance) : state.tableau.Rational :=
    (exact_of_mem_heads hp.toAdmissible le_rfl hstate).toRational
  rw [Tableau.objective_eq hp.toAdmissible (hrational hlater),
    Tableau.objective_eq hp.toAdmissible (hrational hhead), finite_le, finite_lt]
  rw [State.level_le_iff hphase, State.level_lt_iff hphase] at hlevels
  exact ⟨hlevels.1, fun hlengthens ↦ hlevels.2 (State.progresses_of_lengthens hlengthens)⟩

end Objective

section Examined

variable {model : Model ExtendedRational} {root q : Program ExtendedRational model.m model.n}
  {τ : ℚ} {integrality : ExtendedRational}

/-- In runs on the programs that the search on a valid model examines, every iteration in which a
variable enters changes the objective of its phase by exactly the product of score and step.  With
tolerance zero and a valid program no step is negative, the objective of a phase never rises from
one head to a later one, and it falls after a positive step. -/
theorem objective_of_heads (hvalid : model.validate = .ok root) (hτ : 0 ≤ τ)
    (hq : Search.Examines root ⟨finite τ, integrality⟩ q) (allowance : ℕ) :
    (∀ state ∈ heads q (finite τ) allowance, ∀ s event next,
      state.entering? q (finite τ) = some s → state.advance q (finite τ) = .next event next →
        ∃ f σ ρ, state.Improves q τ s f σ ρ event next ∧
          (τ = 0 → q.model.validate = .ok q → 0 ≤ ρ)) ∧
    (τ = 0 → q.model.validate = .ok q →
      (heads q (finite τ) allowance).Pairwise fun head later ↦ later.phase = head.phase →
        later.tableau.objective q head.phase ≤ head.tableau.objective q head.phase ∧
          (head.lengthens q head.phase = true →
            later.tableau.objective q head.phase < head.tableau.objective q head.phase)) := by
  have hadmissible := (hq.descends (Model.valid_of_validate hvalid).toAdmissible hτ).admissible
  constructor
  · intro state hstate s event next hentering hadvance
    obtain ⟨f, σ, ρ, himproves, hnonneg⟩ :=
      exists_improves hadmissible hτ hstate hentering hadvance
    refine ⟨f, σ, ρ, himproves, ?_⟩
    rintro rfl hvalidated
    have hproper := Model.valid_of_validate hvalidated
    exact hnonneg hproper (bounded_of_mem_heads hproper hstate)
  · rintro rfl hvalidated
    exact pairwise_objective (Model.valid_of_validate hvalidated) allowance

end Examined

theorem crossingChild_and_mixedProgram_improve :
    (crossingRows.validate = .ok crossingProgram ∧
      Search.Examines crossingProgram ⟨finite (1 / 1000), finite 0⟩ crossingChild ∧
      ∃ event next, (State.start crossingChild).Improves crossingChild (1 / 1000) 1 (3 / 2) (-2)
        (1 / 2) event next) ∧
    mixedBounds.validate = .ok mixedProgram ∧
      (heads mixedProgram (finite 0) 9).Pairwise fun head later ↦ later.phase = head.phase →
        later.tableau.objective mixedProgram head.phase ≤
            head.tableau.objective mixedProgram head.phase ∧
          (head.lengthens mixedProgram head.phase = true →
            later.tableau.objective mixedProgram head.phase <
              head.tableau.objective mixedProgram head.phase) := by
  have hvalid : crossingRows.validate = .ok crossingProgram :=
    Model.validate_of_defect?_eq_none crossingRows_defect?
  have hmixed : mixedBounds.validate = .ok mixedProgram := rfl
  refine ⟨⟨hvalid, examines_crossingChild, ?_⟩, hmixed, ?_⟩
  · have hstart : State.start crossingChild ∈ heads crossingChild (finite (1 / 1000)) 1 := by
      unfold heads State.heads
      split <;> exact List.mem_cons_self
    have hentering :
        (State.start crossingChild).entering? crossingChild (finite (1 / 1000)) = some 1 := by
      with_unfolding_all decide
    cases hadvance : (State.start crossingChild).advance crossingChild (finite (1 / 1000)) with
    | stop event result =>
      have hgoes : ((State.start crossingChild).run crossingChild (finite (1 / 1000)) 1).result =
          none := by
        with_unfolding_all decide
      rw [State.run_of_stop hadvance] at hgoes
      cases hgoes
    | next event next =>
      obtain ⟨f, σ, ρ, himproves, -⟩ := (objective_of_heads hvalid (by norm_num)
        examines_crossingChild 1).1 _ hstart (1 : Fin 3) event next hentering hadvance
      have hf : (State.start crossingChild).tableau.objective crossingChild .one =
          finite (3 / 2) := by
        with_unfolding_all decide
      have hσ : (State.start crossingChild).tableau.score
          ((State.start crossingChild).tableau.reducedCosts crossingChild .one) 1 =
            finite (-2) := by
        with_unfolding_all decide
      have hρ : ((State.start crossingChild).limit crossingChild (finite (1 / 1000)) 1).step =
          finite (1 / 2) := by
        with_unfolding_all decide
      obtain rfl : 3 / 2 = f := finite.inj (hf.symm.trans himproves.before)
      obtain rfl : -2 = σ := finite.inj (hσ.symm.trans himproves.score)
      obtain rfl : 1 / 2 = ρ := finite.inj (hρ.symm.trans himproves.step)
      exact ⟨event, next, himproves⟩
  · exact (objective_of_heads hmixed le_rfl
      (Search.examines_root mixedProgram ⟨finite 0, finite 0⟩) 9).2 rfl hmixed

end Simplex

end MixedInteger
