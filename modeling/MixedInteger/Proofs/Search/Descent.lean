import MixedInteger.Proofs.Program.Tighten
import MixedInteger.Proofs.Search.Answers
import MixedInteger.Proofs.Simplex.Answers

/-!
# Programs that a search examines

A search solves the root first and then the programs of the nodes it has queued.  In exact
arithmetic all of them descend from the root, whatever the tolerances: a relaxation answers with a
rational point, so a bound that is replaced becomes a rational number.  A program that is examined
need not be valid, since nothing keeps rounded bounds from crossing.
-/

namespace MixedInteger

open Arithmetic ExtendedRational

namespace Search

/-- The programs that a search takes up to solve them. -/
def Examines {α : Type} [Arithmetic α] {m n : ℕ} (root : Program α m n) (settings : Settings α)
    (q : Program α m n) : Prop :=
  ∃ state node rest, Visits root settings state ∧ state.waiting = node :: rest ∧ node.program = q

theorem examines_root {α : Type} [Arithmetic α] {m n : ℕ} (root : Program α m n)
    (settings : Settings α) : Examines root settings root :=
  ⟨State.start root, _, _, .refl, rfl, rfl⟩

variable {m n : ℕ} {p q : Program ExtendedRational m n} {τ : ℚ} {integrality : ExtendedRational}

/-- All nodes that ever wait descend from the root. -/
theorem descends_of_visits (hp : p.Admissible) (hτ : 0 ≤ τ) {state : State ExtendedRational m n}
    (h : Visits p ⟨finite τ, integrality⟩ state) :
    ∀ node ∈ state.waiting, node.program.Descends p := by
  refine h.forall_waiting (fun q ↦ q.Descends p) ?_ ?_
  · rintro visited node rest number x z k side - - hdescends ⟨allowance, hrun⟩ -
    obtain ⟨last, -, -, -, hx, -⟩ :=
      Simplex.exists_optimal_head hdescends.admissible hτ hrun
    rw [hx k]
    exact hdescends.tighten k _ side
  · intro node hnode
    rw [List.mem_singleton.1 hnode]
    exact hp.descends

theorem Examines.descends (hp : p.Admissible) (hτ : 0 ≤ τ)
    (hq : Examines p ⟨finite τ, integrality⟩ q) : q.Descends p := by
  obtain ⟨state, node, rest, hvisits, hwaiting, rfl⟩ := hq
  exact descends_of_visits hp hτ hvisits node (State.mem_waiting hwaiting)

end Search

end MixedInteger
