import MixedInteger.Proofs.Search.Steps

/-!
# Turns of a search

A turn is one node as the search takes it up: the state before, the node and those behind it, and
the outcome of its relaxation.  A run is a sequence of turns, each of which starts where the one
before it left the search; observers see the events of the turns, in their order.  So what holds of
the first turns of a search, whichever they are, holds at every event and at the end.
-/

namespace MixedInteger

namespace Search

variable {α : Type} [Arithmetic α] {m n : Nat}

/-- A node that is taken up, the nodes behind it, and the outcome of its relaxation. -/
structure Turn (α : Type) (m n : Nat) where
  /-- The search before the turn. -/
  state : State α m n
  node : Node α m n
  rest : List (Node α m n)
  outcome : Outcome α n

namespace Turn

def verdict (tolerance : α) (turn : Turn α m n) : Verdict α n :=
  turn.state.verdict tolerance turn.node turn.outcome

/-- What observers are told about the turn. -/
def event (tolerance : α) (turn : Turn α m n) : NodeEvent α n :=
  turn.state.report tolerance turn.node turn.rest turn.outcome

/-- The search after the turn. -/
def after (tolerance : α) (turn : Turn α m n) : State α m n :=
  turn.state.next tolerance turn.node turn.rest turn.outcome

@[simp] theorem event_verdict (tolerance : α) (turn : Turn α m n) :
    (turn.event tolerance).verdict = turn.verdict tolerance := rfl

@[simp] theorem event_node (tolerance : α) (turn : Turn α m n) :
    (turn.event tolerance).node = turn.state.statistics.nodes + 1 := rfl

@[simp] theorem event_waiting (tolerance : α) (turn : Turn α m n) :
    (turn.event tolerance).waiting = turn.rest.length := rfl

@[simp] theorem event_z (tolerance : α) (turn : Turn α m n) :
    (turn.event tolerance).z = turn.outcome.cost? := rfl

theorem after_waiting (tolerance : α) (turn : Turn α m n) :
    (turn.after tolerance).waiting =
      turn.rest ++ turn.node.children (turn.verdict tolerance) := rfl

theorem after_incumbent (tolerance : α) (turn : Turn α m n) :
    (turn.after tolerance).incumbent =
      turn.state.incumbent.after turn.outcome (turn.verdict tolerance) := rfl

theorem after_statistics (tolerance : α) (turn : Turn α m n) :
    (turn.after tolerance).statistics =
      turn.state.statistics.count (turn.verdict tolerance)
        (turn.after tolerance).waiting.length := rfl

theorem verdict_eq_unbounded_iff (tolerance : α) (turn : Turn α m n) :
    turn.verdict tolerance = .unbounded ↔ turn.outcome = .unbounded :=
  judge_eq_unbounded_iff

omit [Arithmetic α] in
theorem exists_optimal_of_cost? {turn : Turn α m n} {z : α} (h : turn.outcome.cost? = some z) :
    ∃ x, turn.outcome = .optimal x z := by
  cases houtcome : turn.outcome with
  | optimal x w =>
    rw [houtcome] at h
    cases h
    exact ⟨x, rfl⟩
  | _ =>
    rw [houtcome] at h
    cases h

/-- The node is the next one of its state, and its relaxation may have this outcome. -/
structure Taken (solves : Solves α m n) (turn : Turn α m n) : Prop where
  waiting : turn.state.waiting = turn.node :: turn.rest
  solved : solves (turn.state.statistics.nodes + 1) turn.node.program (.ok turn.outcome)

end Turn

namespace State

/-- The search takes the listed turns from a state on, the last one last, and is then in a later
state.  No turn follows an unbounded relaxation. -/
inductive Takes (solves : Solves α m n) (tolerance : α) (state : State α m n) :
    List (Turn α m n) → State α m n → Prop where
  | start : Takes solves tolerance state [] state
  | turn (earlier : List (Turn α m n)) (turn : Turn α m n)
      (hearlier : Takes solves tolerance state earlier turn.state)
      (htaken : turn.Taken solves)
      (hbounded : ∀ visited ∈ earlier, visited.outcome ≠ .unbounded) :
      Takes solves tolerance state (earlier ++ [turn]) (turn.after tolerance)

variable {solves : Solves α m n} {tolerance : α} {state later : State α m n}
  {turns : List (Turn α m n)}

theorem Takes.mono {more : Solves α m n} (hmore : ∀ number p result,
    solves number p result → more number p result) (h : state.Takes solves tolerance turns later) :
    state.Takes more tolerance turns later := by
  induction h with
  | start => exact .start
  | turn earlier turn _ htaken hbounded ih =>
    exact .turn earlier turn ih ⟨htaken.waiting, hmore _ _ _ htaken.solved⟩ hbounded

/-- A turn before all others. -/
theorem Takes.cons {turn : Turn α m n} (htaken : turn.Taken solves)
    (hbounded : turn.outcome ≠ .unbounded)
    (h : (turn.after tolerance).Takes solves tolerance turns later) :
    turn.state.Takes solves tolerance (turn :: turns) later := by
  induction h with
  | start => exact .turn [] turn .start htaken (fun _ hvisited ↦ by cases hvisited)
  | turn earlier last _ hlast hearlier ih =>
    refine .turn (turn :: earlier) last ih hlast fun visited hvisited ↦ ?_
    rcases List.mem_cons.1 hvisited with rfl | hvisited
    · exact hbounded
    · exact hearlier visited hvisited

/-- The turns before any given one lead to the state in which it is taken. -/
theorem Takes.take (h : state.Takes solves tolerance turns later) {i : Nat} {turn : Turn α m n}
    (hturn : turns[i]? = some turn) :
    state.Takes solves tolerance (turns.take i) turn.state ∧ turn.Taken solves := by
  induction h with
  | start => cases hturn
  | turn earlier last hearlier htaken _ ih =>
    rcases Nat.lt_trichotomy i earlier.length with hi | rfl | hi
    · rw [List.getElem?_append_left hi] at hturn
      rw [List.take_append_of_le_length (Nat.le_of_lt hi)]
      exact ih hturn
    · rw [List.getElem?_concat_length] at hturn
      cases hturn
      rw [List.take_left]
      exact ⟨hearlier, htaken⟩
    · have hlength : (earlier ++ [last]).length ≤ i := by
        rw [List.length_append]
        exact hi
      rw [List.getElem?_eq_none hlength] at hturn
      cases hturn

/-- An event at a position is that of a turn, and the turns before it led to its state. -/
theorem Takes.exists_turn_of_event (h : state.Takes solves tolerance turns later) {i : Nat}
    {event : NodeEvent α n} (hevent : (turns.map (Turn.event tolerance))[i]? = some event) :
    ∃ turn ∈ turns, turn.event tolerance = event ∧ turn.Taken solves ∧
      ∃ earlier, state.Takes solves tolerance earlier turn.state ∧ earlier.length = i ∧
        (∀ visited ∈ earlier, visited ∈ turns) ∧
        earlier.map (Turn.event tolerance) = (turns.map (Turn.event tolerance)).take i := by
  rw [List.getElem?_map, Option.map_eq_some_iff] at hevent
  obtain ⟨turn, hturn, hevent⟩ := hevent
  obtain ⟨hearlier, htaken⟩ := h.take hturn
  refine ⟨turn, List.mem_of_getElem? hturn, hevent, htaken, turns.take i, hearlier, ?_,
    fun visited ↦ List.mem_of_mem_take, List.map_take⟩
  rw [List.length_take, Nat.min_eq_left]
  exact Nat.le_of_lt (List.getElem?_eq_some_iff.1 hturn).1

/-- Without an unbounded relaxation, the turns are steps of the search. -/
theorem Takes.reaches (h : state.Takes solves tolerance turns later)
    (hbounded : ∀ turn ∈ turns, turn.outcome ≠ .unbounded) :
    state.Reaches solves tolerance later := by
  induction h with
  | start => exact .refl
  | turn earlier turn _ htaken hearlier ih =>
    have hturn := hbounded turn (List.mem_append_right _ List.mem_cons_self)
    exact (ih hearlier).tail
      (.node turn.node turn.rest turn.outcome htaken.waiting htaken.solved hturn)

/-- Every turn is taken in a state that the search reaches. -/
theorem Takes.reaches_of_mem (h : state.Takes solves tolerance turns later) {turn : Turn α m n}
    (hturn : turn ∈ turns) : state.Reaches solves tolerance turn.state ∧ turn.Taken solves := by
  induction h with
  | start => cases hturn
  | turn earlier last hearlier htaken hbounded ih =>
    rcases List.mem_append.1 hturn with hturn | hturn
    · exact ih hturn
    · obtain rfl := List.mem_singleton.1 hturn
      exact ⟨hearlier.reaches hbounded, htaken⟩

/-! ## Runs -/

/-- How a search ends after the listed turns, which left it in the given state. -/
inductive Closes (turns : List (Turn α m n)) (last : State α m n) : Finish α n → Prop where
  /-- No node waits. -/
  | finished (hwaiting : last.waiting = []) (hbounded : ∀ turn ∈ turns, turn.outcome ≠ .unbounded) :
      Closes turns last last.finish
  /-- The relaxation of the last turn is unbounded. -/
  | unbounded (turn : Turn α m n) (hturn : turn ∈ turns) (houtcome : turn.outcome = .unbounded) :
      Closes turns last { outcome := .unbounded, statistics := last.statistics }

/-- A run takes turns, tells observers their events, and ends as its turns do. -/
theorem exists_turns (relax : Relaxation α m n) (tolerance : α) (allowance : Nat)
    (state : State α m n) :
    ∃ turns last, state.Takes relax.Solves tolerance turns last ∧
      (state.run relax tolerance allowance).records.filterMap Record.nodeEvent? =
        turns.map (Turn.event tolerance) ∧
      ∀ finish, (state.run relax tolerance allowance).result = some (.ok finish) →
        Closes turns last finish := by
  induction allowance using Nat.strongRecOn generalizing state with
  | ind allowance ih =>
    have hunfolds := unfolds_run relax tolerance state allowance
    generalize state.run relax tolerance allowance = run at hunfolds ⊢
    cases hunfolds with
    | finished _ hwaiting =>
      refine ⟨[], state, .start, by simp [Record.nodeEvent?], fun finish hfinish ↦ ?_⟩
      cases hfinish
      exact .finished hwaiting fun _ hturn ↦ by cases hturn
    | spent => exact ⟨[], state, .start, rfl, fun _ hfinish ↦ by cases hfinish⟩
    | unsolved =>
      exact ⟨[], state, .start, by simp [Record.nodeEvent?], fun _ hfinish ↦ by cases hfinish⟩
    | deadEnd =>
      exact ⟨[], state, .start, by simp [Record.nodeEvent?], fun _ hfinish ↦ by cases hfinish⟩
    | unbounded _ node rest hwaiting hsolved =>
      let turn : Turn α m n := ⟨state, node, rest, .unbounded⟩
      refine ⟨[turn], turn.after tolerance, .turn [] turn .start ⟨hwaiting, hsolved⟩
        (fun _ hvisited ↦ by cases hvisited), ?_, fun finish hfinish ↦ ?_⟩
      · rw [List.filterMap_append, records, nodeEvents_ofNode]
        rfl
      · cases hfinish
        exact .unbounded turn List.mem_cons_self rfl
    | next allowance node rest outcome hwaiting hsolved hbounded =>
      let turn : Turn α m n := ⟨state, node, rest, outcome⟩
      obtain ⟨turns, last, htakes, hevents, hcloses⟩ :=
        ih allowance (Nat.lt_succ_self _) (turn.after tolerance)
      refine ⟨turn :: turns, last, htakes.cons ⟨hwaiting, hsolved⟩ hbounded, ?_,
        fun finish hfinish ↦ ?_⟩
      · rw [List.filterMap_append, records, nodeEvents_ofNode]
        exact congrArg (turn.event tolerance :: ·) hevents
      · cases hcloses finish hfinish with
        | finished hwaiting hrest =>
          refine .finished hwaiting fun visited hvisited ↦ ?_
          rcases List.mem_cons.1 hvisited with rfl | hvisited
          · exact hbounded
          · exact hrest visited hvisited
        | unbounded visited hvisited houtcome =>
          exact .unbounded visited (List.mem_cons_of_mem _ hvisited) houtcome

end State

end Search

end MixedInteger
