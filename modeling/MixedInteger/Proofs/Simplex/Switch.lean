import MixedInteger.Proofs.Simplex.Artificial
import MixedInteger.Proofs.Simplex.Bounds

/-!
# The end of the first phase

A run begins in the first phase and changes to the second at most once, in an iteration that finds
an infeasibility within the tolerance.  The first head of the second phase stands for that moment:
its point is the one with which the first phase ended.  With tolerance zero all artificial
variables vanish there, so that its structural part is a feasible point.
-/

open Matrix

namespace MixedInteger

open Arithmetic ExtendedRational

namespace Simplex

/-! ## The first head of the second phase -/

section Heads

variable {α : Type} [Arithmetic α] {m n : ℕ} {p : Program α m n} {tolerance : α}

/-- An iteration that changes the phase is the end of the first one. -/
theorem State.Continues.phase_change {state next : State α m n}
    (h : state.Continues p tolerance next) (hphase : state.phase = .one)
    (hnext : next.phase = .two) :
    next = state.switched p ∧ ¬ tolerance < state.tableau.basicObjective := by
  cases h with
  | secondPhase _ _ hobjective => exact ⟨rfl, hobjective⟩
  | pivot s r => rw [State.followedBy, hphase] at hnext; cases hnext
  | flip s => rw [State.followedBy, hphase] at hnext; cases hnext

/-- The first head of the second phase, if the run gets that far. -/
def State.switch? (p : Program α m n) (tolerance : α) (allowance : ℕ) (state : State α m n) :
    Option (State α m n) :=
  (state.heads p tolerance allowance).find? fun head ↦ head.phase = .two

/-- A run that reaches the second phase does so by the end of the first, and goes on from there. -/
theorem State.exists_switched {state head : State α m n} (hphase : state.phase = .one)
    {allowance : ℕ} (hhead : head ∈ state.heads p tolerance allowance)
    (htwo : head.phase = .two) :
    ∃ before ∈ state.heads p tolerance allowance,
      before.phase = .one ∧ ¬ tolerance < before.tableau.basicObjective ∧
        state.switch? p tolerance allowance = some (before.switched p) ∧
        ∃ rest, head ∈ (before.switched p).heads p tolerance rest ∧
          (before.switched p).heads p tolerance rest <:+ state.heads p tolerance allowance := by
  induction allowance generalizing state with
  | zero => cases hhead
  | succ allowance ih =>
    have hne : head ≠ state := by
      rintro rfl
      rw [hphase] at htwo
      cases htwo
    unfold switch?
    cases hadvance : state.advance p tolerance with
    | next event next =>
      rw [heads_of_next hadvance] at hhead ⊢
      have hrest := (List.mem_cons.1 hhead).resolve_left hne
      rw [List.find?_cons_of_neg (by rw [hphase]; simp)]
      cases hnext : next.phase with
      | two =>
        obtain ⟨hswitched, hobjective⟩ :=
          (continues_of_advance hadvance).phase_change hphase hnext
        obtain ⟨later, hcons⟩ := List.head?_eq_some_iff.1 (head?_heads hrest)
        rw [hswitched] at hrest hcons
        rw [hswitched]
        refine ⟨state, List.mem_cons_self, hphase, hobjective, ?_, allowance, hrest,
          List.suffix_cons _ _⟩
        rw [hcons, List.find?_cons_of_pos (by simp [switched])]
      | one =>
        obtain ⟨before, hbefore, hone, hobjective, hswitch, rest, hmem, hsuffix⟩ := ih hnext hrest
        exact ⟨before, List.mem_cons_of_mem _ hbefore, hone, hobjective, hswitch, rest, hmem,
          hsuffix.trans (List.suffix_cons _ _)⟩
    | stop event result =>
      rw [heads_of_stop hadvance] at hhead
      exact absurd (List.mem_singleton.1 hhead) hne

/-- The first head of the second phase in the run on a program. -/
def switch? (p : Program α m n) (tolerance : α) (allowance : ℕ) : Option (State α m n) :=
  (State.start p).switch? p tolerance allowance

theorem exists_switched {allowance : ℕ} {head : State α m n}
    (hhead : head ∈ heads p tolerance allowance) (htwo : head.phase = .two) :
    ∃ before ∈ heads p tolerance allowance,
      before.phase = .one ∧ ¬ tolerance < before.tableau.basicObjective ∧
        switch? p tolerance allowance = some (before.switched p) ∧
        ∃ rest, head ∈ (before.switched p).heads p tolerance rest ∧
          (before.switched p).heads p tolerance rest <:+ heads p tolerance allowance :=
  State.exists_switched rfl hhead htwo

theorem mem_heads_of_switch? {allowance : ℕ} {switch : State α m n}
    (h : switch? p tolerance allowance = some switch) :
    switch ∈ heads p tolerance allowance ∧ switch.phase = .two := by
  unfold switch? State.switch? at h
  have htwo := List.find?_some h
  exact ⟨List.mem_of_find?_eq_some h, of_decide_eq_true htwo⟩

/-- An iteration brings no artificial variable into the basis. -/
theorem State.Continues.artificial_basic {state next : State α m n}
    (h : state.Continues p tolerance next) {i : Fin m}
    (hi : next.tableau.standing.get (.artificial i) = .basic) :
    state.tableau.standing.get (.artificial i) = .basic := by
  cases h with
  | secondPhase => exact hi
  | pivot s r =>
    unfold State.followedBy State.moved at hi
    rw [Tableau.pivot_standing_get] at hi
    split_ifs at hi with hleaving hentering
    · exact absurd hi (Tableau.leavingStanding_ne_basic _ _ _ _)
    · cases hentering
    · exact hi
  | flip s =>
    unfold State.followedBy State.moved at hi
    rw [Tableau.flip_standing_get, if_neg (by simp)] at hi
    exact hi

/-- An artificial variable that is basic at a later head is basic from the beginning on. -/
theorem State.artificial_basic_of_mem_heads {state head : State α m n} {allowance : ℕ}
    (hhead : head ∈ state.heads p tolerance allowance) (i : Fin m)
    (hi : head.tableau.standing.get (.artificial i) = .basic) :
    state.tableau.standing.get (.artificial i) = .basic :=
  State.heads_induction
    (fun later ↦ later.tableau.standing.get (.artificial i) = .basic →
      state.tableau.standing.get (.artificial i) = .basic)
    (fun _ _ hlater hnext hbasic ↦ hlater (hnext.artificial_basic hbasic)) id allowance head hhead
    hi

end Heads

/-! ## The point at the switch -/

variable {m n : ℕ} {p : Program ExtendedRational m n} {τ : ℚ} {allowance : ℕ}
  {switch : State ExtendedRational m n}

/-- The first phase ends with an infeasibility within the tolerance. -/
theorem infeasibility_switch_le (hp : p.Admissible) (hτ : 0 ≤ τ)
    (h : switch? p (finite τ) allowance = some switch) : switch.tableau.infeasibility ≤ τ := by
  obtain ⟨hswitch, htwo⟩ := mem_heads_of_switch? h
  obtain ⟨before, hbefore, hone, hobjective, heq, -⟩ := exists_switched hswitch htwo
  obtain rfl : before.switched p = switch := Option.some.inj (heq.symm.trans h)
  have hconsistent := consistent_of_mem_heads (entersNonbasic p hτ) hbefore
  rw [hone] at hconsistent
  rw [Tableau.basicObjective_eq hp (exact_of_mem_heads hp hτ hbefore).toRational hconsistent
    (vanishing_of_mem_heads hp hτ hbefore), finite_lt, not_lt] at hobjective
  exact hobjective

/-- With tolerance zero no artificial variable is left when the first phase ends. -/
theorem artificial_switch (hp : p.Valid) (h : switch? p (finite 0) allowance = some switch)
    (i : Fin m) : switch.tableau.point (.artificial i) = 0 := by
  obtain ⟨hswitch, -⟩ := mem_heads_of_switch? h
  have hrational := (exact_of_mem_heads hp.toAdmissible le_rfl hswitch).toRational
  have hnonneg (k : Fin m) : 0 ≤ switch.tableau.point (.artificial k) :=
    (bounded_of_mem_heads hp hswitch).artificial_nonneg hrational k
  have hsum : switch.tableau.infeasibility = 0 :=
    le_antisymm (infeasibility_switch_le hp.toAdmissible le_rfl h)
      (Finset.sum_nonneg fun k _ ↦ hnonneg k)
  exact (Finset.sum_eq_zero_iff_of_nonneg fun k _ ↦ hnonneg k).1 hsum i (Finset.mem_univ i)

/-- A point within bounds without artificial part is feasible. -/
theorem Tableau.Bounded.feasible {t : Tableau ExtendedRational m n} (ht : t.Exact p)
    (h : t.Bounded p) (hzero : ∀ i, t.point (.artificial i) = 0) : p.Feasible t.solution where
  rows := ht.rows_iff.2 hzero
  lower j := h.lower_point ht.toRational (.structural j)
  upper j := h.point_upper ht.toRational (.structural j)

/-- With tolerance zero the first phase ends at a feasible point, unless it ends the run. -/
theorem feasible_switch (hp : p.Valid) (h : switch? p (finite 0) allowance = some switch) :
    p.Feasible switch.tableau.solution := by
  obtain ⟨hswitch, -⟩ := mem_heads_of_switch? h
  exact (bounded_of_mem_heads hp hswitch).feasible
    (exact_of_mem_heads hp.toAdmissible le_rfl hswitch) (artificial_switch hp h)

end Simplex

end MixedInteger
