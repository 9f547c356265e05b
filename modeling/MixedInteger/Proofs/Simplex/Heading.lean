import MixedInteger.Proofs.Simplex.Switch

/-!
# Headings

While a variable enters, all variables change in proportion; the heading says how, per unit of way.
A row only changes by its artificial variable, and an artificial variable stays where it is when
the entering column has no entry in its row.  As long as all columns of the second phase spare the
artificial variables in this way, these remain as the first phase left them.
-/

open Matrix
open scoped BigOperators

namespace MixedInteger

open Arithmetic ExtendedRational

namespace Simplex

variable {m n : ℕ} {p : Program ExtendedRational m n} {τ : ℚ}

namespace Tableau

variable {t : Tableau ExtendedRational m n} {phase : Phase} {s : Fin n}

/-- How all variables change per unit of way while variable `s` moves in its direction. -/
def heading (t : Tableau ExtendedRational m n) (p : Program ExtendedRational m n) (s : Fin n) :
    Variable m n → ℚ :=
  (t.standing.get (.structural s)).direction • t.ray s (t.basisColumn p s)

theorem extendedMatrix_mulVec_heading (ht : t.Exact p) :
    extendedMatrix p *ᵥ t.heading p s = 0 := by
  rw [heading, mulVec_smul, extendedMatrix_mulVec_ray_basisColumn ht, smul_zero]

theorem cost_heading (hp : p.Admissible) (ht : t.Exact p) (hc : t.Consistent p phase)
    (hs : t.standing.get (.structural s) ≠ .basic) :
    phaseCosts p phase ⬝ᵥ t.heading p s =
      (t.standing.get (.structural s)).direction * t.reducedCost p phase (.structural s) := by
  rw [heading, dotProduct_smul, cost_ray hp ht hc hs, smul_eq_mul]

theorem move_point_heading (hp : p.Admissible) (ht : t.Rational) (ρ : ℚ) :
    (t.move s (finite ρ) (t.column p s)).point = t.point + ρ • t.heading p s := by
  rw [move_point ht (column_get hp ht s), heading, smul_smul, mul_comm ρ]

/-- The entering variable moves in its direction. -/
theorem heading_entering (hc : t.Consistent p phase)
    (hs : t.standing.get (.structural s) ≠ .basic) :
    t.heading p s (.structural s) = (t.standing.get (.structural s)).direction := by
  rw [heading, Pi.smul_apply, smul_eq_mul, ray_entering _ (hc.not_basic_of_ne hs), mul_one]

/-- A basic variable moves against the rate of its row. -/
theorem heading_basic (hc : t.Consistent p phase)
    (hs : t.standing.get (.structural s) ≠ .basic) (r : Fin m) :
    t.heading p s (t.basis.get r) = -t.rate s (t.basisColumn p s) r := by
  rw [heading, Pi.smul_apply, smul_eq_mul, ray_basic hc.injective _ (hc.not_basic_of_ne hs), rate,
    mul_neg]

/-- All other variables stay. -/
theorem heading_of_nonbasic (hc : t.Consistent p phase) {v : Variable m n}
    (hv : t.standing.get v ≠ .basic) (hvs : v ≠ .structural s) : t.heading p s v = 0 := by
  rw [heading, Pi.smul_apply, smul_eq_mul, ray_of_nonbasic _ (hc.not_basic_of_ne hv) hvs, mul_zero]

theorem heading_cases (hc : t.Consistent p phase)
    (hs : t.standing.get (.structural s) ≠ .basic) (v : Variable m n) :
    (v = .structural s ∧
        t.heading p s v = (t.standing.get (.structural s)).direction) ∨
      (∃ r, v = t.basis.get r ∧ t.heading p s v = -t.rate s (t.basisColumn p s) r) ∨
      t.heading p s v = 0 := by
  by_cases hvs : v = .structural s
  · left
    rw [hvs]
    exact ⟨rfl, heading_entering hc hs⟩
  by_cases hv : t.standing.get v = .basic
  · obtain ⟨r, rfl⟩ := (hc.basic_iff v).1 hv
    exact .inr (.inl ⟨r, rfl, heading_basic hc hs r⟩)
  · exact .inr (.inr (heading_of_nonbasic hc hv hvs))

/-! ## Rows and artificial variables -/

/-- The column of variable `s` leaves the artificial variable of row `i` alone. -/
def Spares (t : Tableau ExtendedRational m n) (p : Program ExtendedRational m n) (s : Fin n)
    (i : Fin m) : Prop :=
  t.basis.get i = .artificial i → (t.column p s).get i = 0

/-- The artificial variable of a row stays along the heading if the column leaves it alone. -/
theorem heading_artificial (hp : p.Admissible) (ht : t.Rational) (hc : t.Consistent p phase)
    (hs : t.standing.get (.structural s) ≠ .basic) {i : Fin m} (hi : t.Spares p s i) :
    t.heading p s (.artificial i) = 0 := by
  rw [heading, Pi.smul_apply, smul_eq_mul]
  by_cases hbasic : t.basis.get i = .artificial i
  · have hcolumn := hi hbasic
    rw [column_get hp ht, zero_eq_finite, finite.injEq] at hcolumn
    rw [← hbasic, ray_basic hc.injective _ (hc.not_basic_of_ne hs), hcolumn, neg_zero, mul_zero]
  · have hnowhere (k : Fin m) : t.basis.get k ≠ .artificial i := by
      intro hk
      rw [hc.own_row k i hk] at hk
      exact hbasic hk
    rw [ray_of_nonbasic _ hnowhere (by simp), mul_zero]

/-- Along the heading a row changes by its artificial variable alone. -/
theorem mulVec_heading (ht : t.Exact p) (i : Fin m) :
    (p.matrix *ᵥ fun j ↦ t.heading p s (.structural j)) i =
      -(startSign p i * t.heading p s (.artificial i)) := by
  have hrow := extendedMatrix_mulVec (p := p) (t.heading p s) i
  rw [extendedMatrix_mulVec_heading ht, Pi.zero_apply] at hrow
  linarith

end Tableau

/-! ## Runs -/

/-- An iteration whose column spares all artificial variables moves none of them. -/
theorem State.Continues.artificial_eq (hp : p.Admissible) (hτ : 0 ≤ τ)
    {state next : State ExtendedRational m n} (h : state.Continues p (finite τ) next)
    (hexact : state.tableau.Exact p) (hconsistent : state.tableau.Consistent p state.phase)
    (hspares : ∀ s, state.entering? p (finite τ) = some s → ∀ i, state.tableau.Spares p s i)
    (i : Fin m) : next.tableau.point (.artificial i) = state.tableau.point (.artificial i) := by
  have ht := hexact.toRational
  have hmoved (s : Fin n) (hentering : state.entering? p (finite τ) = some s) (ρ : ℚ) :
      (state.tableau.move s (finite ρ) (state.tableau.column p s)).point (.artificial i) =
        state.tableau.point (.artificial i) := by
    have hstays := Tableau.heading_artificial hp ht hconsistent
      (entersNonbasic p hτ state s hentering) (hspares s hentering i)
    rw [Tableau.move_point_heading hp ht, Pi.add_apply, Pi.smul_apply, hstays, smul_zero, add_zero]
  cases h.proceeds hp hτ ht with
  | secondPhase => rfl
  | pivot s r ρ hentering => exact hmoved s hentering ρ
  | flip s ρ hentering => exact hmoved s hentering ρ

theorem State.Continues.phase_two {α : Type} [Arithmetic α] {p : Program α m n} {tolerance : α}
    {state next : State α m n} (h : state.Continues p tolerance next)
    (hphase : state.phase = .two) : next.phase = .two := by
  cases h with
  | secondPhase => rfl
  | pivot s r => exact hphase
  | flip s => exact hphase

/-- If every column of the second phase spares the artificial variables, they remain as the first
phase left them. -/
theorem artificial_eq_of_spares (hp : p.Admissible) (hτ : 0 ≤ τ) {allowance : ℕ}
    {switch last : State ExtendedRational m n}
    (hswitch : switch? p (finite τ) allowance = some switch)
    (hlast : last ∈ heads p (finite τ) allowance) (hphase : last.phase = .two)
    (hspares : ∀ head ∈ heads p (finite τ) allowance, head.phase = .two →
      ∀ s, head.entering? p (finite τ) = some s → ∀ i, head.tableau.Spares p s i) (i : Fin m) :
    last.tableau.point (.artificial i) = switch.tableau.point (.artificial i) := by
  obtain ⟨before, -, -, -, heq, rest, hmem, hsuffix⟩ := exists_switched hlast hphase
  obtain rfl : before.switched p = switch := Option.some.inj (heq.symm.trans hswitch)
  have hkept : ∀ head ∈ (before.switched p).heads p (finite τ) rest,
      ∀ next : State ExtendedRational m n,
      (head.phase = .two ∧
        head.tableau.point (.artificial i) = before.tableau.point (.artificial i)) →
      head.Continues p (finite τ) next →
      next.phase = .two ∧
        next.tableau.point (.artificial i) = before.tableau.point (.artificial i) := by
    rintro head hhead next ⟨htwo, hsame⟩ hnext
    have hrun := hsuffix.subset hhead
    refine ⟨hnext.phase_two htwo, ?_⟩
    rw [← hsame]
    exact hnext.artificial_eq hp hτ (exact_of_mem_heads hp hτ hrun)
      (consistent_of_mem_heads (entersNonbasic p hτ) hrun) (hspares head hrun htwo) i
  exact (State.heads_induction_of_mem _ hkept ⟨rfl, rfl⟩ last hmem).2

end Simplex

end MixedInteger
