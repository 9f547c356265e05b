import MixedInteger.Proofs.Simplex.Artificial

/-!
# Answers of a run

The answer of a run is given in the iteration of its last head, and each kind of answer tells what
this head is like: the phase it is in, whether a variable enters, and in exact arithmetic the
rational point or infeasibility that the answer or its event reports.  So does a dead end.
-/

open Matrix

namespace MixedInteger

open Arithmetic ExtendedRational

namespace Simplex

variable {m n : ℕ} {p : Program ExtendedRational m n} {τ : ℚ} {allowance : ℕ}

/-- The last head of a run that ends with an optimal point has that point. -/
theorem exists_optimal_head (hp : p.Admissible) (hτ : 0 ≤ τ)
    {x : Vector ExtendedRational n} {z : ExtendedRational}
    (hrun : (run p (finite τ) allowance).result = some (.ok (.optimal x z))) :
    ∃ last, (heads p (finite τ) allowance).getLast? = some last ∧
      last.entering? p (finite τ) = none ∧ last.phase = .two ∧
      (∀ j, x.get j = finite (last.tableau.solution j)) ∧
      z = finite (p.costs ⬝ᵥ last.tableau.solution) := by
  obtain ⟨last, event, hlast, hends, -⟩ := State.exists_last_head hrun
  have hrational := (exact_of_mem_heads hp hτ (mem_heads_of_getLast? hlast)).toRational
  have hx (j : Fin n) :
      last.tableau.value.structural.get j = finite (last.tableau.solution j) :=
    hrational.value (.structural j)
  cases hends with
  | optimal hentering hphase =>
    exact ⟨last, hlast, hentering, hphase, hx, hp.cost_ofFn hx⟩

/-- The last head of a run that answers infeasible, and the event that it reports. -/
theorem exists_infeasible_head (hp : p.Admissible) (hτ : 0 ≤ τ)
    (hrun : (run p (finite τ) allowance).result = some (.ok .infeasible)) :
    ∃ last, (heads p (finite τ) allowance).getLast? = some last ∧
      last.entering? p (finite τ) = none ∧ last.phase = .one ∧
      τ < last.tableau.infeasibility ∧
      last.tableau.basicObjective = finite last.tableau.infeasibility ∧
      .infeasible (last.iterations + 1) last.tableau.basicObjective ∈
        (run p (finite τ) allowance).events := by
  obtain ⟨last, event, hlast, hends, hevents⟩ := State.exists_last_head hrun
  have hhead := mem_heads_of_getLast? hlast
  have hconsistent := consistent_of_mem_heads (entersNonbasic p hτ) hhead
  cases hends with
  | infeasible hentering hphase hobjective =>
    rw [hphase] at hconsistent
    have heq := Tableau.basicObjective_eq hp (exact_of_mem_heads hp hτ hhead).toRational
      hconsistent (vanishing_of_mem_heads hp hτ hhead)
    have habove : τ < last.tableau.infeasibility := by
      rwa [heq, finite_lt] at hobjective
    exact ⟨last, hlast, hentering, hphase, habove, heq, hevents.subset (List.mem_singleton_self _)⟩

/-- The last head of a run that answers unbounded, and the event that it reports. -/
theorem exists_unbounded_head {tolerance : ExtendedRational}
    (hrun : (run p tolerance allowance).result = some (.ok .unbounded)) :
    ∃ last s, (heads p tolerance allowance).getLast? = some last ∧
      last.entering? p tolerance = some s ∧ last.phase = .two ∧
      infinity ≤ (last.limit p tolerance s).step ∧
      .unbounded (last.iterations + 1) s ∈ (run p tolerance allowance).events := by
  obtain ⟨last, event, hlast, hends, hevents⟩ := State.exists_last_head hrun
  cases hends with
  | unbounded s hentering hphase hstep =>
    exact ⟨last, s, hlast, hentering, hphase, hstep,
      hevents.subset (List.mem_singleton_self _)⟩

/-- The last head of a run that meets a dead end. -/
theorem exists_deadEnd_head {tolerance : ExtendedRational} {deadEnd : DeadEnd}
    (hrun : (run p tolerance allowance).result = some (.error deadEnd)) :
    ∃ last s, (heads p tolerance allowance).getLast? = some last ∧
      last.entering? p tolerance = some s ∧ last.phase = .one ∧
      infinity ≤ (last.limit p tolerance s).step ∧ deadEnd.iteration = last.iterations + 1 := by
  obtain ⟨last, event, hlast, hends, -⟩ := State.exists_last_head hrun
  cases hends with
  | deadEnd s hentering hphase hstep => exact ⟨last, s, hlast, hentering, hphase, hstep, rfl⟩

end Simplex

end MixedInteger
