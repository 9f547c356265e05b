import MixedInteger.Proofs.Indexed.Operations

/-!
# Runs on lists

The simplex method on a tableau of lists, where every access is checked: one iteration after the
other, each with its own choice of the entering variable, of the row that leaves and of the bound
that is met.  On the model of a program it has a value for every tolerance and every allowance of
iterations, the one that the run on vectors has.
-/

namespace MixedInteger

namespace Indexed

open Arithmetic Simplex

variable {α : Type} [Arithmetic α] {m n : Nat}

/-! ## Iterations -/

/-- How a model is answered. -/
inductive Answer (α : Type) where
  | optimal (x : List α) (z : α)
  | infeasible
  | unbounded

/-- The head of an iteration. -/
structure State (α : Type) where
  phase : Phase
  iterations : Nat
  tableau : Tableau α

/-- What follows an iteration. -/
inductive Step (α : Type) where
  | next (state : State α)
  | stop (result : Except DeadEnd (Answer α))

namespace State

/-- The end of a phase, reached when no variable improves its objective. -/
def endPhase (model : Model α) (tolerance : α) (state : State α) : Option (Step α) :=
  match state.phase with
  | .one => do
    let infeasibility ← state.tableau.basicObjective
    if tolerance < infeasibility then some (.stop (.ok .infeasible))
    else
      (state.tableau.loadCosts model).map fun tableau ↦
        .next { phase := .two, iterations := state.iterations + 1, tableau := tableau }
  | .two =>
    (slice state.tableau.x model.n).map fun x ↦ .stop (.ok (.optimal x (dot model.c x)))

/-- The move of variable `s`, or the end of the run if nothing limits it. -/
def enter (model : Model α) (tolerance : α) (state : State α) (s : Nat) : Option (Step α) := do
  let tableau ← state.tableau.computeColumn model s
  let limit ← tableau.ratioTest model tolerance s
  if infinity ≤ limit.1 then
    some (.stop
      (match state.phase with
      | .one => .error { iteration := state.iterations + 1 }
      | .two => .ok .unbounded))
  else do
    let moved ← tableau.move s limit.1
    (match limit.2 with
    | some r => moved.pivot model tolerance state.phase s r
    | none => moved.flip s).map fun tableau ↦
      .next { phase := state.phase, iterations := state.iterations + 1, tableau := tableau }

/-- One iteration. -/
def advance (model : Model α) (tolerance : α) (state : State α) : Option (Step α) := do
  let tableau ← state.tableau.price model state.phase
  match ← tableau.entering tolerance model.n with
  | none => endPhase model tolerance { state with tableau := tableau }
  | some s => enter model tolerance { state with tableau := tableau } s

/-- The result of the run from a state, unless the allowance is spent before there is one. -/
def run (model : Model α) (tolerance : α) :
    Nat → State α → Option (Option (Except DeadEnd (Answer α)))
  | 0, _ => some none
  | allowance + 1, state => do
    match ← state.advance model tolerance with
    | .next state => state.run model tolerance allowance
    | .stop result => some (some result)

end State

/-- The result of the run on a model. -/
def run (model : Model α) (tolerance : α) (allowance : Nat) :
    Option (Option (Except DeadEnd (Answer α))) := do
  let tableau ← Tableau.start model
  State.run model tolerance allowance { phase := .one, iterations := 0, tableau := tableau }

/-! ## Runs in range -/

/-- An outcome with its point as a list. -/
def answer : Outcome α n → Answer α
  | .optimal x z => .optimal x.toList z
  | .infeasible => .infeasible
  | .unbounded => .unbounded

/-- The head of an iteration with the lists of its tableau. -/
def listed (state : Simplex.State α m n) (multipliers : Vector α m) (reducedCosts : Vector α n)
    (column : Vector α m) : State α where
  phase := state.phase
  iterations := state.iterations
  tableau := lists state.tableau multipliers reducedCosts column

/-- What follows an iteration, with the lists of its tableau. -/
def listedStep (multipliers : Vector α m) (reducedCosts : Vector α n) (column : Vector α m) :
    Simplex.Step α m n → Step α
  | .next _ state => .next (listed state multipliers reducedCosts column)
  | .stop _ result => .stop (result.map answer)

variable {p : Program α m n} {tolerance : α} {state : Simplex.State α m n}
  {multipliers column : Vector α m} {reducedCosts : Vector α n}

theorem endPhase_listed :
    (listed state multipliers reducedCosts column).endPhase p.model tolerance =
      some (listedStep multipliers reducedCosts column (state.endPhase p tolerance)) := by
  unfold State.endPhase Simplex.State.endPhase
  cases hphase : state.phase with
  | one =>
    simp only [listed, hphase, basicObjective_lists, loadCosts_lists, Option.bind_eq_bind,
      Option.bind_some, Option.map_some]
    split_ifs <;> rfl
  | two =>
    have hslice : slice (lists state.tableau multipliers reducedCosts column).x p.model.n =
        some state.tableau.value.structural.toList := slice_append ..
    have hcost : dot p.model.c state.tableau.value.structural.toList =
        p.cost state.tableau.value.structural := dot_toList ..
    simp only [listed, hphase, hslice, Option.map_some, hcost]
    rfl

theorem enter_listed (s : Fin n) :
    (listed state multipliers reducedCosts column).enter p.model tolerance s.val =
      some (listedStep multipliers reducedCosts (state.tableau.column p s)
        (state.enter p tolerance s)) := by
  unfold State.enter Simplex.State.enter
  simp only [listed, computeColumn_lists, ratioTest_lists, Option.bind_eq_bind, Option.bind_some,
    pair, move_lists]
  generalize state.tableau.limit p tolerance s (state.tableau.column p s) = limit
  by_cases hstep : infinity ≤ limit.step
  · rw [if_pos hstep, if_pos hstep]
    cases state.phase <;> rfl
  · rw [if_neg hstep, if_neg hstep]
    cases hleaving : limit.leaving with
    | some r =>
      simp only [Option.map_some, pivot_lists]
      rfl
    | none =>
      simp only [Option.map_none, Option.map_some, flip_lists]
      rfl

/-- One iteration in range; the column is written only if a variable enters. -/
theorem exists_advance_listed (p : Program α m n) (tolerance : α) (state : Simplex.State α m n)
    (multipliers : Vector α m) (reducedCosts : Vector α n) (column : Vector α m) :
    ∃ multipliers' reducedCosts' column',
      (listed state multipliers reducedCosts column).advance p.model tolerance =
        some (listedStep multipliers' reducedCosts' column' (state.advance p tolerance)) := by
  unfold State.advance Simplex.State.advance
  simp only [listed, price_lists, Option.bind_eq_bind, Option.bind_some]
  have hentering : (lists state.tableau state.tableau.multipliers
      (state.tableau.reducedCosts p state.phase) column).entering tolerance p.model.n =
        some ((state.entering? p tolerance).map Fin.val) := entering_lists tolerance
  rw [hentering, Option.bind_some]
  cases state.entering? p tolerance with
  | none => exact ⟨_, _, _, endPhase_listed⟩
  | some s => exact ⟨_, _, _, enter_listed s⟩

/-- The run on lists from the lists of a state. -/
theorem run_listed (state : Simplex.State α m n) (allowance : Nat) :
    (listed state multipliers reducedCosts column).run p.model tolerance allowance =
      some ((state.run p tolerance allowance).result.map (Except.map answer)) := by
  induction allowance generalizing state multipliers reducedCosts column with
  | zero => rfl
  | succ allowance ih =>
    obtain ⟨multipliers', reducedCosts', column', hadvance⟩ :=
      exists_advance_listed p tolerance state multipliers reducedCosts column
    unfold State.run Simplex.State.run
    rw [hadvance]
    cases state.advance p tolerance with
    | next event next => exact ih next
    | stop event result => rfl

/-- No run on the model of a program leaves a list. -/
theorem run_model (p : Program α m n) (tolerance : α) (allowance : Nat) :
    run p.model tolerance allowance =
      some ((Simplex.run p tolerance allowance).result.map (Except.map answer)) := by
  unfold run
  rw [start_model]
  exact run_listed (Simplex.State.start p) allowance

/-- No iteration looks at the answer of a model. -/
theorem advance_cleared (model : Model α) (tolerance : α) (state : State α) :
    state.advance model.cleared tolerance = state.advance model tolerance :=
  rfl

theorem run_cleared (model : Model α) (tolerance : α) (allowance : Nat) :
    run model.cleared tolerance allowance = run model tolerance allowance := by
  have hstate (state : State α) :
      state.run model.cleared tolerance allowance = state.run model tolerance allowance := by
    induction allowance generalizing state with
    | zero => rfl
    | succ allowance ih =>
      unfold State.run
      rw [advance_cleared]
      simp only [ih]
  unfold run
  simp only [hstate]
  rfl

end Indexed

end MixedInteger
