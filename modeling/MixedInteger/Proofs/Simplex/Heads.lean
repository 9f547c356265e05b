import Mathlib.Tactic.SplitIfs
import MixedInteger.Simplex.Run

/-!
# The states of a run

A run passes through a list of states, its heads: one for each iteration it begins.  Whatever
holds at the start and is kept by an iteration holds at every head, and a run that ends does so in
the iteration of its last head.

What an iteration can do is said once, by `State.Continues` for one that is followed by another
and by `State.Ends` for the last one.  Statements about runs go by cases on these two.
-/

namespace MixedInteger

namespace Simplex

open Arithmetic

variable {α : Type} [Arithmetic α] {m n : Nat} {p : Program α m n} {tolerance : α}

namespace State

/-! ## Single iterations -/

/-- The column of variable `s` in the basis of a state. -/
def column (p : Program α m n) (state : State α m n) (s : Fin n) : Vector α m :=
  state.tableau.column p s

/-- The outcome of the ratio test for variable `s`. -/
def limit (p : Program α m n) (tolerance : α) (state : State α m n) (s : Fin n) : Limit α m :=
  state.tableau.limit p tolerance s (state.column p s)

/-- The tableau after variable `s` has moved as far as the ratio test allows. -/
def moved (p : Program α m n) (tolerance : α) (state : State α m n) (s : Fin n) : Tableau α m n :=
  state.tableau.move s (state.limit p tolerance s).step (state.column p s)

/-- The state after an iteration that does not change the phase. -/
def followedBy (state : State α m n) (tableau : Tableau α m n) : State α m n :=
  { phase := state.phase, iterations := state.iterations + 1, tableau := tableau }

/-- The state that follows the end of the first phase. -/
def switched (p : Program α m n) (state : State α m n) : State α m n :=
  { phase := .two, iterations := state.iterations + 1, tableau := state.tableau.withCosts p }

/-- An iteration that is followed by another one. -/
inductive Continues (p : Program α m n) (tolerance : α) (state : State α m n) :
    State α m n → Prop where
  /-- The first phase has driven the artificial variables to zero. -/
  | secondPhase (hentering : state.entering? p tolerance = none) (hphase : state.phase = .one)
      (hobjective : ¬ tolerance < state.tableau.basicObjective) :
      Continues p tolerance state (state.switched p)
  /-- The entering variable takes the place of the one that is basic in row `r`. -/
  | pivot (s : Fin n) (r : Fin m) (hentering : state.entering? p tolerance = some s)
      (hstep : ¬ infinity ≤ (state.limit p tolerance s).step)
      (hleaving : (state.limit p tolerance s).leaving = some r) :
      Continues p tolerance state (state.followedBy
        ((state.moved p tolerance s).pivot p tolerance state.phase s r (state.column p s)))
  /-- The entering variable reaches its opposite bound. -/
  | flip (s : Fin n) (hentering : state.entering? p tolerance = some s)
      (hstep : ¬ infinity ≤ (state.limit p tolerance s).step)
      (hleaving : (state.limit p tolerance s).leaving = none) :
      Continues p tolerance state (state.followedBy ((state.moved p tolerance s).flip s))

/-- The last iteration of a run. -/
inductive Ends (p : Program α m n) (tolerance : α) (state : State α m n) :
    Option (Event α m n) → Result α n → Prop where
  | infeasible (hentering : state.entering? p tolerance = none) (hphase : state.phase = .one)
      (hobjective : tolerance < state.tableau.basicObjective) :
      Ends p tolerance state
        (some (.infeasible (state.iterations + 1) state.tableau.basicObjective)) (.ok .infeasible)
  | optimal (hentering : state.entering? p tolerance = none) (hphase : state.phase = .two) :
      Ends p tolerance state
        (some (.optimal (state.iterations + 1) (p.cost state.tableau.value.structural)))
        (.ok (.optimal state.tableau.value.structural (p.cost state.tableau.value.structural)))
  | unbounded (s : Fin n) (hentering : state.entering? p tolerance = some s)
      (hphase : state.phase = .two) (hstep : infinity ≤ (state.limit p tolerance s).step) :
      Ends p tolerance state (some (.unbounded (state.iterations + 1) s)) (.ok .unbounded)
  | deadEnd (s : Fin n) (hentering : state.entering? p tolerance = some s)
      (hphase : state.phase = .one) (hstep : infinity ≤ (state.limit p tolerance s).step) :
      Ends p tolerance state none (.error { iteration := state.iterations + 1 })

/-- What an iteration can do. -/
theorem advance_cases (p : Program α m n) (tolerance : α) (state : State α m n) :
    (∃ event next, state.advance p tolerance = .next event next ∧
      state.Continues p tolerance next) ∨
    ∃ event result, state.advance p tolerance = .stop event result ∧
      state.Ends p tolerance event result := by
  unfold advance
  split
  · rename_i hentering
    unfold endPhase
    split
    · rename_i hphase
      dsimp only
      split_ifs with hobjective
      · exact .inr ⟨_, _, rfl, .infeasible hentering hphase hobjective⟩
      · exact .inl ⟨_, _, rfl, .secondPhase hentering hphase hobjective⟩
    · rename_i hphase
      exact .inr ⟨_, _, rfl, .optimal hentering hphase⟩
  · rename_i s hentering
    unfold enter
    dsimp only
    split_ifs with hstep
    · split
      · rename_i hphase
        exact .inr ⟨_, _, rfl, .deadEnd s hentering hphase hstep⟩
      · rename_i hphase
        exact .inr ⟨_, _, rfl, .unbounded s hentering hphase hstep⟩
    · refine .inl ⟨_, _, rfl, ?_⟩
      split
      · rename_i r hleaving
        exact .pivot s r hentering hstep hleaving
      · rename_i hleaving
        exact .flip s hentering hstep hleaving

theorem continues_of_advance {state next : State α m n} {event : Event α m n}
    (h : state.advance p tolerance = .next event next) : state.Continues p tolerance next := by
  obtain ⟨_, _, hadvance, hnext⟩ | ⟨_, _, hadvance, -⟩ := state.advance_cases p tolerance
  · cases hadvance.symm.trans h
    exact hnext
  · cases hadvance.symm.trans h

theorem ends_of_advance {state : State α m n} {event : Option (Event α m n)} {result : Result α n}
    (h : state.advance p tolerance = .stop event result) : state.Ends p tolerance event result := by
  obtain ⟨_, _, hadvance, -⟩ | ⟨_, _, hadvance, hends⟩ := state.advance_cases p tolerance
  · cases hadvance.symm.trans h
  · cases hadvance.symm.trans h
    exact hends

/-! ## Heads -/

/-- The states in which the iterations of a run begin, in order. -/
def heads (p : Program α m n) (tolerance : α) : Nat → State α m n → List (State α m n)
  | 0, _ => []
  | allowance + 1, state =>
    match state.advance p tolerance with
    | .next _ next => state :: next.heads p tolerance allowance
    | .stop _ _ => [state]

theorem heads_of_next {state next : State α m n} {event : Event α m n}
    (h : state.advance p tolerance = .next event next) (allowance : Nat) :
    state.heads p tolerance (allowance + 1) = state :: next.heads p tolerance allowance := by
  rw [heads, h]

theorem heads_of_stop {state : State α m n} {event : Option (Event α m n)} {result : Result α n}
    (h : state.advance p tolerance = .stop event result) (allowance : Nat) :
    state.heads p tolerance (allowance + 1) = [state] := by
  rw [heads, h]

theorem head?_heads {state head : State α m n} {allowance : Nat}
    (h : head ∈ state.heads p tolerance allowance) :
    (state.heads p tolerance allowance).head? = some state := by
  cases allowance with
  | zero => cases h
  | succ allowance =>
    cases hadvance : state.advance p tolerance with
    | next event next => rw [heads_of_next hadvance, List.head?_cons]
    | stop event result => rw [heads_of_stop hadvance, List.head?_cons]

/-- A later head of a run is a head of the run from an earlier head on. -/
theorem mem_heads_of_le {state head later : State α m n} {allowance k l : Nat} (hle : k ≤ l)
    (hhead : (state.heads p tolerance allowance)[k]? = some head)
    (hlater : (state.heads p tolerance allowance)[l]? = some later) :
    ∃ rest, later ∈ head.heads p tolerance rest := by
  induction k generalizing state allowance l with
  | zero =>
    have hfirst := head?_heads (List.mem_of_getElem? hhead)
    rw [List.head?_eq_getElem?, hhead] at hfirst
    rw [Option.some.inj hfirst]
    exact ⟨allowance, List.mem_of_getElem? hlater⟩
  | succ k ih =>
    obtain ⟨l, rfl⟩ : ∃ later, l = later + 1 := ⟨l - 1, by omega⟩
    cases allowance with
    | zero => cases hhead
    | succ allowance =>
      cases hadvance : state.advance p tolerance with
      | next event next =>
        rw [heads_of_next hadvance, List.getElem?_cons_succ] at hhead hlater
        exact ih (Nat.le_of_succ_le_succ hle) hhead hlater
      | stop event result => simp [heads_of_stop hadvance] at hhead

/-- What each iteration of a run keeps holds at every head of the run. -/
theorem heads_induction_of_mem (Holds : State α m n → Prop) {state : State α m n}
    {allowance : Nat}
    (hkept : ∀ head ∈ state.heads p tolerance allowance, ∀ next,
      Holds head → head.Continues p tolerance next → Holds next)
    (hstate : Holds state) : ∀ head ∈ state.heads p tolerance allowance, Holds head := by
  induction allowance generalizing state with
  | zero => nofun
  | succ allowance ih =>
    intro head hhead
    cases hadvance : state.advance p tolerance with
    | next event next =>
      rw [heads_of_next hadvance] at hhead hkept
      rcases List.mem_cons.1 hhead with rfl | hrest
      · exact hstate
      · have hnext := hkept state List.mem_cons_self next hstate (continues_of_advance hadvance)
        exact ih (fun later hlater ↦ hkept later (List.mem_cons_of_mem _ hlater)) hnext head hrest
    | stop event result =>
      rw [heads_of_stop hadvance] at hhead
      rw [List.mem_singleton.1 hhead]
      exact hstate

/-- What any iteration keeps holds at every head of a run. -/
theorem heads_induction (Holds : State α m n → Prop)
    (hkept : ∀ state next, Holds state → state.Continues p tolerance next → Holds next)
    {state : State α m n} (hstate : Holds state) (allowance : Nat) :
    ∀ head ∈ state.heads p tolerance allowance, Holds head :=
  heads_induction_of_mem Holds (fun state _ ↦ hkept state) hstate

theorem run_of_next {state next : State α m n} {event : Event α m n}
    (h : state.advance p tolerance = .next event next) (allowance : Nat) :
    state.run p tolerance (allowance + 1) =
      { events := event :: (next.run p tolerance allowance).events
        result := (next.run p tolerance allowance).result } := by
  rw [run, h]

theorem run_of_stop {state : State α m n} {stopped : Option (Event α m n)} {result : Result α n}
    (h : state.advance p tolerance = .stop stopped result) (allowance : Nat) :
    state.run p tolerance (allowance + 1) =
      { events := stopped.toList, result := some result } := by
  rw [run, h]

/-- A run that ends does so in the iteration of its last head, with the event of that iteration. -/
theorem exists_last_head {state : State α m n} {allowance : Nat} {result : Result α n}
    (h : (state.run p tolerance allowance).result = some result) :
    ∃ last event, (state.heads p tolerance allowance).getLast? = some last ∧
      last.Ends p tolerance event result ∧
      event.toList <:+ (state.run p tolerance allowance).events := by
  induction allowance generalizing state with
  | zero => cases h
  | succ allowance ih =>
    cases hadvance : state.advance p tolerance with
    | stop event stopped =>
      rw [run_of_stop hadvance] at h ⊢
      cases h
      rw [heads_of_stop hadvance]
      exact ⟨state, event, rfl, ends_of_advance hadvance, List.suffix_rfl⟩
    | next event next =>
      rw [run_of_next hadvance] at h ⊢
      rw [heads_of_next hadvance]
      obtain ⟨last, final, hlast, hends, hsuffix⟩ := ih h
      refine ⟨last, final, ?_, hends, hsuffix.trans (List.suffix_cons _ _)⟩
      rw [List.getLast?_cons, hlast, Option.getD_some]

/-- More iterations change nothing about the result of a run that has ended. -/
theorem run_result_of_le {state : State α m n} {few many : Nat} {result : Result α n}
    (h : (state.run p tolerance few).result = some result) (hle : few ≤ many) :
    (state.run p tolerance many).result = some result := by
  induction few generalizing state many with
  | zero => cases h
  | succ few ih =>
    cases many with
    | zero => cases hle
    | succ many =>
      cases hadvance : state.advance p tolerance with
      | stop event stopped =>
        rw [run_of_stop hadvance] at h ⊢
        exact h
      | next event next =>
        rw [run_of_next hadvance] at h ⊢
        exact ih h (Nat.le_of_succ_le_succ hle)

end State

/-- The result of a run that may take any number of iterations. -/
def Yields (p : Program α m n) (tolerance : α) (result : Result α n) : Prop :=
  ∃ allowance, (run p tolerance allowance).result = some result

/-- All runs on a program that end have the same result. -/
theorem Yields.unique {first second : Result α n} (hfirst : Yields p tolerance first)
    (hsecond : Yields p tolerance second) : first = second := by
  obtain ⟨few, hfew⟩ := hfirst
  obtain ⟨many, hmany⟩ := hsecond
  have hleft := State.run_result_of_le hfew (Nat.le_max_left few many)
  have hright := State.run_result_of_le hmany (Nat.le_max_right few many)
  exact Option.some.inj (hleft.symm.trans hright)

/-- The heads of the run on a program. -/
def heads (p : Program α m n) (tolerance : α) (allowance : Nat) : List (State α m n) :=
  (State.start p).heads p tolerance allowance

theorem mem_heads_of_getLast? {allowance : Nat} {last : State α m n}
    (h : (heads p tolerance allowance).getLast? = some last) :
    last ∈ heads p tolerance allowance :=
  List.mem_of_getLast? h

end Simplex

end MixedInteger
