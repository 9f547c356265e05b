import MixedInteger.Proofs.Simplex.Heads

/-!
# The events of a run

Every iteration reports one event, except one that meets a dead end; so the events of a run are
those of its heads.  A longer run begins with the events of a shorter one, and as long as there is
no result each further iteration adds one event.
-/

namespace MixedInteger

namespace Simplex

open Arithmetic

variable {α : Type} [Arithmetic α] {m n : Nat} {p : Program α m n} {tolerance : α}

namespace State

variable {state next : State α m n} {event : Event α m n} {allowance : Nat}

/-! ## Single iterations -/

/-- What the iteration reports that a state begins. -/
def event? (p : Program α m n) (tolerance : α) (state : State α m n) : Option (Event α m n) :=
  match state.advance p tolerance with
  | .next event _ => some event
  | .stop event _ => event

theorem event?_of_next (h : state.advance p tolerance = .next event next) :
    state.event? p tolerance = some event := by
  rw [event?, h]

theorem event?_of_stop {stopped : Option (Event α m n)} {result : Result α n}
    (h : state.advance p tolerance = .stop stopped result) :
    state.event? p tolerance = stopped := by
  rw [event?, h]

/-- The event of an iteration in which a variable enters and that is followed by another one: the
variable moves by the step of the ratio test. -/
theorem event_of_entering {s : Fin n} (hentering : state.entering? p tolerance = some s)
    (h : state.advance p tolerance = .next event next) :
    event = .pivot (state.iterations + 1) state.phase s (state.limit p tolerance s).leaving
        (state.limit p tolerance s).step ∧
      ¬ infinity ≤ (state.limit p tolerance s).step ∧
      next.phase = state.phase ∧ next.tableau.value = (state.moved p tolerance s).value := by
  rw [advance, hentering] at h
  unfold enter at h
  dsimp only at h
  split_ifs at h with hstep
  · split at h <;> cases h
  · cases h
    refine ⟨rfl, hstep, rfl, ?_⟩
    dsimp only
    split <;> rfl

/-- The event of an iteration that is followed by another one: the end of the first phase, or the
move of the entering variable by the step of the ratio test. -/
theorem event_of_advance (h : state.advance p tolerance = .next event next) :
    (event = .secondPhase (state.iterations + 1) ∧ state.phase = .one ∧ next = state.switched p) ∨
      ∃ s, event = .pivot (state.iterations + 1) state.phase s (state.limit p tolerance s).leaving
          (state.limit p tolerance s).step ∧
        state.entering? p tolerance = some s ∧ ¬ infinity ≤ (state.limit p tolerance s).step ∧
        next.phase = state.phase ∧ next.tableau.value = (state.moved p tolerance s).value := by
  cases hentering : state.entering? p tolerance with
  | some s =>
    obtain ⟨hevent, hmoves⟩ := event_of_entering hentering h
    exact .inr ⟨s, hevent, rfl, hmoves⟩
  | none =>
    rw [advance, hentering] at h
    unfold endPhase at h
    dsimp only at h
    split at h
    · rename_i hphase
      split_ifs at h
      cases h
      exact .inl ⟨rfl, hphase, rfl⟩
    · cases h

/-! ## Runs -/

/-- The events of a run are those of its heads. -/
theorem events_run (p : Program α m n) (tolerance : α) (allowance : Nat) (state : State α m n) :
    (state.run p tolerance allowance).events =
      (state.heads p tolerance allowance).filterMap (event? p tolerance) := by
  induction allowance generalizing state with
  | zero => rfl
  | succ allowance ih =>
    cases hadvance : state.advance p tolerance with
    | stop event result =>
      rw [run_of_stop hadvance, heads_of_stop hadvance, List.filterMap_cons,
        event?_of_stop hadvance]
      cases event <;> rfl
    | next event next =>
      rw [run_of_next hadvance, heads_of_next hadvance, List.filterMap_cons,
        event?_of_next hadvance, ih next]

/-- A longer run begins with the events of a shorter one. -/
theorem events_prefix (p : Program α m n) (tolerance : α) (state : State α m n) {few many : Nat}
    (h : few ≤ many) :
    (state.run p tolerance few).events <+: (state.run p tolerance many).events := by
  induction few generalizing state many with
  | zero => exact List.nil_prefix
  | succ few ih =>
    obtain ⟨many, rfl⟩ : ∃ rest, many = rest + 1 := ⟨many - 1, by omega⟩
    cases hadvance : state.advance p tolerance with
    | stop event result =>
      have hsame : (state.run p tolerance (few + 1)).events =
          (state.run p tolerance (many + 1)).events := by
        rw [run_of_stop hadvance, run_of_stop hadvance]
      exact hsame ▸ List.prefix_rfl
    | next event next =>
      rw [run_of_next hadvance, run_of_next hadvance]
      exact (List.prefix_cons_inj event).2 (ih next (Nat.le_of_succ_le_succ h))

/-- A run without a result has made all its iterations, and the last one was to be followed by
another one. -/
theorem exists_last_event (h : (state.run p tolerance (allowance + 1)).result = none) :
    ∃ head ∈ state.heads p tolerance (allowance + 1), ∃ event next,
      head.advance p tolerance = .next event next ∧
      (state.run p tolerance (allowance + 1)).events =
        (state.run p tolerance allowance).events ++ [event] ∧
      (state.run p tolerance allowance).events.length = allowance := by
  induction allowance generalizing state with
  | zero =>
    cases hadvance : state.advance p tolerance with
    | stop event result =>
      rw [run_of_stop hadvance] at h
      cases h
    | next event next =>
      rw [run_of_next hadvance, heads_of_next hadvance]
      exact ⟨state, List.mem_cons_self, event, next, hadvance, rfl, rfl⟩
  | succ allowance ih =>
    cases hadvance : state.advance p tolerance with
    | stop event result =>
      rw [run_of_stop hadvance] at h
      cases h
    | next event next =>
      rw [run_of_next hadvance] at h
      obtain ⟨head, hhead, last, after, hlast, hevents, hlength⟩ := ih h
      rw [run_of_next hadvance, run_of_next hadvance, heads_of_next hadvance]
      exact ⟨head, List.mem_cons_of_mem _ hhead, last, after, hlast,
        congrArg (event :: ·) hevents, congrArg (· + 1) hlength⟩

/-- The event of an iteration has its place in all longer runs. -/
theorem getElem?_events_of_lt {k : Nat} (hk : k < allowance)
    (hevents : (state.run p tolerance (k + 1)).events =
      (state.run p tolerance k).events ++ [event])
    (hlength : (state.run p tolerance k).events.length = k) :
    (state.run p tolerance allowance).events[k]? = some event := by
  obtain ⟨rest, hrest⟩ := events_prefix p tolerance state (Nat.succ_le_of_lt hk)
  rw [← hrest, hevents, List.append_assoc, List.getElem?_append_right (Nat.le_of_eq hlength),
    hlength, Nat.sub_self]
  rfl

end State

end Simplex

end MixedInteger
