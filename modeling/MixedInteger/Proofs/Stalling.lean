import MixedInteger.Proofs.PrimalBounds
import MixedInteger.Proofs.Simplex.Level

/-!
# Runs that never end

Nothing keeps the simplex method from cycling.  With tolerance zero it can only do so on the spot:
within a phase no two positive steps begin with the same standings, so that there are at most as
many as combinations of standings, and a run without a result takes nothing but steps of length zero
from some iteration on.
-/

namespace MixedInteger

open Arithmetic ExtendedRational

namespace Simplex

/-! ## Runs without a result -/

section Unending

variable {m n : ℕ} {p : Program ExtendedRational m n}

theorem countP_events_mono (holds : Event ExtendedRational m n → Bool) {few many : ℕ}
    (h : few ≤ many) : (run p (finite 0) few).events.countP holds ≤
      (run p (finite 0) many).events.countP holds :=
  (State.events_prefix p (finite 0) (State.start p) h).sublist.countP_le

/-- A run that never ends makes progress for the last time. -/
theorem exists_last_progress (hp : p.Valid) :
    ∃ last, ∀ allowance, (run p (finite 0) allowance).events.countP Event.progresses ≤
      (run p (finite 0) last).events.countP Event.progresses := by
  let missing (allowance : ℕ) : ℕ :=
    2 * (3 ^ n * 2 ^ m) - (run p (finite 0) allowance).events.countP Event.progresses
  refine ⟨Function.argmin missing, fun allowance ↦ ?_⟩
  have hleast : missing (Function.argmin missing) ≤ missing allowance :=
    Function.argmin_le missing allowance
  have hbound := countP_progresses_le hp allowance
  have hbound' := countP_progresses_le hp (Function.argmin missing)
  simp only [missing] at hleast hbound' ⊢
  omega

/-- An event that is told after the last progress makes none. -/
theorem not_progresses_of_le {last k : ℕ} {event : Event ExtendedRational m n}
    (hlast : ∀ allowance, (run p (finite 0) allowance).events.countP Event.progresses ≤
      (run p (finite 0) last).events.countP Event.progresses) (hk : last ≤ k)
    (hevents : (run p (finite 0) (k + 1)).events = (run p (finite 0) k).events ++ [event]) :
    event.progresses = false := by
  by_contra hprogress
  have hless := hlast (k + 1)
  have hmore := countP_events_mono (p := p) Event.progresses hk
  rw [hevents, List.countP_append, List.countP_singleton, if_pos (by simpa using hprogress)]
    at hless
  omega

/-- After its last progress a run that never ends takes steps of length zero. -/
theorem exists_zero_steps (hp : p.Valid)
    (h : ∀ allowance, (run p (finite 0) allowance).result = none) :
    ∃ last, ∀ k, last ≤ k → ∃ iteration phase s leaving, ∀ allowance, k < allowance →
      (run p (finite 0) allowance).events[k]? =
        some (.pivot iteration phase s leaving (finite 0)) := by
  obtain ⟨last, hlast⟩ := exists_last_progress hp
  refine ⟨last, fun k hk ↦ ?_⟩
  obtain ⟨head, hhead, event, next, hadvance, hevents, hlength⟩ :=
    State.exists_last_event (h (k + 1))
  have hstays : event.progresses = false := not_progresses_of_le hlast hk hevents
  obtain ⟨rfl, -⟩ | ⟨s, leaving, ρ, hρ, rfl, -⟩ :=
    State.exact_event_of_advance hp (proper_of_mem_heads hp hhead) hadvance
  · cases hstays
  · have hzero : ρ = 0 := by
      have hnot := of_decide_eq_false hstays
      rw [zero_eq_finite, finite_lt] at hnot
      exact le_antisymm (not_lt.1 hnot) hρ
    subst hzero
    exact ⟨_, _, s, leaving, fun allowance hallowance ↦
      State.getElem?_events_of_lt hallowance hevents hlength⟩

end Unending

/-- With tolerance zero a run on the program of a valid model takes at most `3 ^ n * 2 ^ m` positive
steps in a phase, each of them from other standings; and one that never ends takes steps of length
zero only, from some iteration on. -/
theorem positive_steps {model : Model ExtendedRational}
    {p : Program ExtendedRational model.m model.n} (hvalid : model.validate = .ok p) :
    (∀ allowance phase,
      (run p (finite 0) allowance).events.countP (Event.lengthens phase) ≤
          3 ^ model.n * 2 ^ model.m ∧
        ((heads p (finite 0) allowance).filter (State.lengthens p phase)).Pairwise
          fun head later ↦ head.tableau.standing ≠ later.tableau.standing) ∧
    ((∀ allowance, (run p (finite 0) allowance).result = none) →
      ∃ last, ∀ k, last ≤ k → ∃ iteration phase s leaving, ∀ allowance, k < allowance →
        (run p (finite 0) allowance).events[k]? =
          some (.pivot iteration phase s leaving (finite 0))) := by
  have hp := Model.valid_of_validate hvalid
  exact ⟨fun allowance phase ↦
    ⟨countP_lengthens_le hp phase allowance, pairwise_standing hp phase allowance⟩,
    exists_zero_steps hp⟩

/-! ## A run that cycles -/

section Recurrence

variable {α : Type} [Arithmetic α] {m n : ℕ} {p : Program α m n} {tolerance : α}

/-- What a state does depends on its phase and its tableau; the iterations are only counted. -/
theorem State.exists_advance_of_same {state later next : State α m n} {event : Event α m n}
    (hphase : later.phase = state.phase) (htableau : later.tableau = state.tableau)
    (h : state.advance p tolerance = .next event next) :
    ∃ event' next', later.advance p tolerance = .next event' next' ∧
      next'.phase = next.phase ∧ next'.tableau = next.tableau := by
  obtain ⟨phase, iterations, tableau⟩ := state
  obtain ⟨phase', iterations', tableau'⟩ := later
  dsimp only at hphase htableau
  subst hphase htableau
  have hentering : entering? p tolerance ⟨phase', iterations', tableau'⟩ =
      entering? p tolerance ⟨phase', iterations, tableau'⟩ := rfl
  unfold advance at h ⊢
  rw [hentering]
  cases hnone : entering? p tolerance ⟨phase', iterations, tableau'⟩ with
  | none =>
    rw [hnone] at h
    unfold endPhase at h ⊢
    cases phase' with
    | one =>
      dsimp only at h ⊢
      split_ifs at h ⊢
      cases h
      exact ⟨_, _, rfl, rfl, rfl⟩
    | two => cases h
  | some s =>
    rw [hnone] at h
    unfold enter at h ⊢
    dsimp only at h ⊢
    split_ifs at h ⊢
    · cases phase' <;> cases h
    · cases h
      exact ⟨_, _, rfl, rfl, rfl⟩

theorem State.result_of_same {state later : State α m n} (hphase : later.phase = state.phase)
    (htableau : later.tableau = state.tableau) {allowance : ℕ}
    (h : (state.run p tolerance allowance).result = none) :
    (later.run p tolerance allowance).result = none := by
  induction allowance generalizing state later with
  | zero => rfl
  | succ allowance ih =>
    cases hadvance : state.advance p tolerance with
    | stop event result =>
      rw [run_of_stop hadvance] at h
      cases h
    | next event next =>
      obtain ⟨event', next', hadvance', hphase', htableau'⟩ :=
        exists_advance_of_same hphase htableau hadvance
      rw [run_of_next hadvance] at h
      rw [run_of_next hadvance']
      exact ih hphase' htableau' h

/-- A run goes on from each of its heads. -/
theorem State.result_of_getElem? {state head : State α m n} {allowance k : ℕ}
    (hhead : (state.heads p tolerance allowance)[k]? = some head) (rest : ℕ) :
    (state.run p tolerance (k + rest)).result = (head.run p tolerance rest).result := by
  induction k generalizing state allowance with
  | zero =>
    have hfirst := head?_heads (List.mem_of_getElem? hhead)
    rw [List.head?_eq_getElem?, hhead] at hfirst
    rw [Option.some.inj hfirst, Nat.zero_add]
  | succ k ih =>
    cases allowance with
    | zero => simp [heads] at hhead
    | succ allowance =>
      cases hadvance : state.advance p tolerance with
      | stop event result => simp [heads_of_stop hadvance] at hhead
      | next event next =>
        rw [heads_of_next hadvance, List.getElem?_cons_succ] at hhead
        rw [Nat.add_right_comm, run_of_next hadvance]
        exact ih hhead

/-- A run that comes back to a tableau in the same phase never ends. -/
theorem State.result_of_recurrence {state later : State α m n} {allowance k : ℕ}
    (hlater : (state.heads p tolerance allowance)[k]? = some later) (hk : 0 < k)
    (hphase : later.phase = state.phase) (htableau : later.tableau = state.tableau) (spent : ℕ) :
    (state.run p tolerance spent).result = none := by
  induction spent using Nat.strongRecOn with
  | ind spent ih =>
    rcases Nat.lt_or_ge spent k with hlt | hge
    · cases hresult : (state.run p tolerance spent).result with
      | none => rfl
      | some result =>
        have hmore := run_result_of_le hresult hlt.le
        rw [← Nat.add_zero k, result_of_getElem? hlater] at hmore
        cases hmore
    · obtain ⟨rest, rfl⟩ := Nat.exists_eq_add_of_le hge
      rw [result_of_getElem? hlater]
      exact result_of_same hphase htableau (ih rest (by omega))

end Recurrence

/-- Two rows through the point at which all variables start.  One variable after the other enters
and leaves again without moving. -/
def circling : Model ExtendedRational :=
  (Model.ofRows
      [[finite (1 / 2), finite (-12), finite (-1 / 2), finite 3, finite 1, finite 0],
        [finite (1 / 4), finite (-8), finite (-1), finite 9, finite 0, finite 1]]
      [finite 0, finite 0]
      [finite (-3 / 4), finite 20, finite (-1 / 2), finite 6, finite 0, finite 0]).boundedBy
    (List.replicate 6 (finite 0))
    [positiveInfinity, positiveInfinity, finite 1, positiveInfinity, positiveInfinity,
      positiveInfinity]

theorem circling_defect? : circling.defect? = none := by
  decide

def circlingProgram : Program ExtendedRational 2 6 :=
  circling.program (Model.shaped_of_defect?_eq_none circling_defect?)

deriving instance DecidableEq for PerVariable, Tableau, State

/-- The state to which the run returns. -/
def circle : State ExtendedRational 2 6 where
  phase := .two
  iterations := 4
  tableau :=
    { value := { structural := Vector.replicate 6 0, artificial := Vector.replicate 2 0 }
      standing :=
        { structural := #v[.basic, .atLower, .atLower, .atLower, .basic, .atLower]
          artificial := Vector.replicate 2 .atLower }
      basis := #v[.structural 4, .structural 0]
      inverse := #v[#v[finite 1, finite (-2)], #v[finite 0, finite 4]]
      basicCost := #v[finite 0, finite (-3 / 4)] }

theorem circlingProgram_never_ends (allowance : ℕ) :
    (run circlingProgram (finite 0) allowance).result = none := by
  have hreached : (heads circlingProgram (finite 0) 5)[4]? = some circle := by
    with_unfolding_all decide
  have hagain : (circle.heads circlingProgram (finite 0) 7)[6]? =
      some { circle with iterations := 10 } := by
    with_unfolding_all decide
  cases hresult : (run circlingProgram (finite 0) allowance).result with
  | none => rfl
  | some result =>
    have hmore := State.run_result_of_le hresult (Nat.le_add_left allowance 4)
    rw [State.result_of_getElem? hreached,
      State.result_of_recurrence hagain (Nat.succ_pos 5) rfl rfl] at hmore
    cases hmore

theorem circling_stalls :
    (mixedBounds.validate = .ok mixedProgram ∧
      (run mixedProgram (finite 0) 9).events.countP (Event.lengthens .one) = 2 ∧
      (run mixedProgram (finite 0) 9).events.countP (Event.lengthens .one) ≤ 3 ^ 5 * 2 ^ 2) ∧
    circling.validate = .ok circlingProgram ∧
      (∀ allowance, (run circlingProgram (finite 0) allowance).result = none) ∧
      ∃ last, ∀ k, last ≤ k → ∃ iteration phase s leaving, ∀ allowance, k < allowance →
        (run circlingProgram (finite 0) allowance).events[k]? =
          some (.pivot iteration phase s leaving (finite 0)) := by
  have hmixed : mixedBounds.validate = .ok mixedProgram := rfl
  have hcount : (run mixedProgram (finite 0) 9).events.countP (Event.lengthens .one) = 2 := by
    with_unfolding_all decide
  have hcircling : circling.validate = .ok circlingProgram := rfl
  exact ⟨⟨hmixed, hcount, ((positive_steps hmixed).1 9 .one).1⟩, hcircling,
    circlingProgram_never_ends, (positive_steps hcircling).2 circlingProgram_never_ends⟩

end Simplex

end MixedInteger
