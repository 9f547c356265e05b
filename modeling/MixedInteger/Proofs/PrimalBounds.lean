import MixedInteger.Proofs.Simplex.Bounds

/-!
# Bounds at every head of a run

With tolerance zero a run on a valid program never leaves the bounds.  At each of its heads, in
either phase, all structural values are in their boxes and all artificial ones are nonnegative, a
nonbasic variable is exactly at the bound that its standing names, which is the lower one for an
artificial variable, and no variable would have to move backwards in the ratio test.
-/

namespace MixedInteger

open Arithmetic ExtendedRational

namespace Simplex

variable {m n : ℕ} {p : Program ExtendedRational m n}

/-- Within bounds the ratio test finds no negative step, whichever variable enters. -/
theorem State.limit_step_nonneg (hp : p.Valid) {state : State ExtendedRational m n}
    (hstate : state.tableau.Rational) (hbounded : state.tableau.Bounded p) (s : Fin n) :
    0 ≤ (state.limit p (finite 0) s).step := by
  by_cases hstep : infinity ≤ (state.limit p (finite 0) s).step
  · rw [infinity_le_iff.1 hstep]
    exact finite_le_infinity 0
  · obtain ⟨ρ, hρ, hattains, -⟩ := State.limit_attains hp.toAdmissible le_rfl hstate hstep
    rw [hρ]
    exact finite_le.2 (hattains.step_nonneg hp le_rfl hstate hbounded)

/-- What a state has to do with the bounds of a program. -/
structure State.KeepsBounds (state : State ExtendedRational m n)
    (p : Program ExtendedRational m n) : Prop where
  rational : ∀ v, ∃ q : ℚ, state.tableau.value.get v = finite q
  lower : ∀ j, p.lower.get j ≤ state.tableau.value.get (.structural j)
  upper : ∀ j, state.tableau.value.get (.structural j) ≤ p.upper.get j
  artificial : ∀ i, 0 ≤ state.tableau.value.get (.artificial i)
  atLower : ∀ j, state.tableau.standing.get (.structural j) = .atLower →
    state.tableau.value.get (.structural j) = p.lower.get j
  atUpper : ∀ j, state.tableau.standing.get (.structural j) = .atUpper →
    state.tableau.value.get (.structural j) = p.upper.get j
  nonbasic_artificial : ∀ i, state.tableau.standing.get (.artificial i) ≠ .basic →
    state.tableau.standing.get (.artificial i) = .atLower ∧
      state.tableau.value.get (.artificial i) = 0
  /-- No step of the ratio test is negative; it may be infinite. -/
  step : ∀ s, 0 ≤ (state.limit p (finite 0) s).step

/-- With tolerance zero a run on the program of a valid model keeps the bounds at all heads. -/
theorem keepsBounds_of_mem_heads {model : Model ExtendedRational}
    {p : Program ExtendedRational model.m model.n} (hvalid : model.validate = .ok p)
    {allowance : ℕ} {head : State ExtendedRational model.m model.n}
    (hhead : head ∈ heads p (finite 0) allowance) : head.KeepsBounds p := by
  have hp := Model.valid_of_validate hvalid
  have hregular := regular_of_mem_heads hp.toAdmissible le_rfl (separated_zero p) hhead
  have hrational := hregular.exact.toRational
  have hbounded := bounded_of_mem_heads hp hhead
  constructor
  case rational => exact fun v ↦ ⟨_, hrational.value v⟩
  case lower => exact fun j ↦ hbounded.lower (.structural j)
  case upper => exact fun j ↦ hbounded.upper (.structural j)
  case artificial => exact fun i ↦ hbounded.lower (.artificial i)
  case atLower => exact fun j hj ↦ hregular.placed.atLower (.structural j) hj
  case atUpper => exact fun j hj ↦ hregular.placed.atUpper (.structural j) hj
  case nonbasic_artificial =>
    intro i hi
    refine ⟨hregular.placed.artificial_standing hrational hi, ?_⟩
    rw [hrational.value, hregular.placed.artificial hrational hi]
    rfl
  case step => exact fun s ↦ State.limit_step_nonneg hp hrational hbounded s

/-- Two rows in a variable of every kind: two with both bounds, one without an upper and one
without a lower bound, and a fixed one, which crosses its box in a step of length zero. -/
def mixedBounds : Model ExtendedRational :=
  (Model.ofRows
      [[finite 1, finite 1, finite 1, finite 1, finite 0],
        [finite 1, finite (-1), finite 0, finite 0, finite 1]]
      [finite 5, finite 1] [finite (-3), finite (-2), finite 0, finite 0, finite (-1)]).boundedBy
    [finite 0, finite 0, finite 0, finite 1, negativeInfinity]
    [finite 3, finite 3, positiveInfinity, finite 1, finite 2]

theorem mixedBounds_defect? : mixedBounds.defect? = none := by
  decide

def mixedProgram : Program ExtendedRational 2 5 :=
  mixedBounds.program (Model.shaped_of_defect?_eq_none mixedBounds_defect?)

theorem mixedProgram_keepsBounds :
    mixedBounds.validate = .ok mixedProgram ∧
      ∃ head, (heads mixedProgram (finite 0) 9)[3]? = some head ∧ head.phase = .two ∧
        head.entering? mixedProgram (finite 0) = some 3 ∧
        head.tableau.standing.get (.artificial 0) ≠ .basic ∧ head.KeepsBounds mixedProgram := by
  have hvalid : mixedBounds.validate = .ok mixedProgram := rfl
  have hread : (heads mixedProgram (finite 0) 9)[3]?.map (fun head ↦
      (head.phase, head.entering? mixedProgram (finite 0),
        head.tableau.standing.get (.artificial 0))) = some (.two, some 3, .atLower) := by
    with_unfolding_all decide
  obtain ⟨head, hhead, heq⟩ := Option.map_eq_some_iff.1 hread
  rw [Prod.mk.injEq, Prod.mk.injEq] at heq
  obtain ⟨hphase, hentering, hstanding⟩ := heq
  refine ⟨hvalid, head, hhead, hphase, hentering, ?_, ?_⟩
  · rw [hstanding]
    exact Standing.noConfusion
  · exact keepsBounds_of_mem_heads hvalid (List.mem_of_getElem? hhead)

end Simplex

end MixedInteger
