import Mathlib.Logic.Relation
import Mathlib.Tactic.SplitIfs
import MixedInteger.Search.Run

/-!
# The steps of a search

A search takes one step per node: it solves the relaxation of the node, judges the outcome, and
queues the children.  What the relaxations answer is a parameter here, as a relation and not as a
function, so that one theory covers relaxations of every kind and length.

`State.Continues` is a step that leaves nodes to be looked at, `State.Ends` is the end of a search,
and `State.Reaches` are any number of steps.  A run passes through states that are reached, and
every event it reports comes from one of them.  Statements about searches go by induction on
`State.Reaches`; those about the waiting nodes alone follow from `State.Reaches.forall_waiting`.
-/

namespace MixedInteger

namespace Search

open Arithmetic

variable {α : Type} [Arithmetic α] {m n : Nat}

/-! ## Judgements -/

/-- The judgement of an optimal point: it costs more than the incumbent, it is split at a branching
index, or it is integral and improves on the incumbent if it costs less. -/
theorem judge_optimal_cases (integer : Vector Bool n) (tolerance best : α) (x : Vector α n)
    (z : α) :
    (best < z ∧ judge integer tolerance best (.optimal x z) = .fathomed) ∨
      (¬ best < z ∧ ∃ k, branchingIndex x integer tolerance = some k ∧
        judge integer tolerance best (.optimal x z) = .branched k (x.get k)) ∨
      (¬ best < z ∧ branchingIndex x integer tolerance = none ∧
        judge integer tolerance best (.optimal x z) = .integral (decide (z < best))) := by
  simp only [judge]
  split_ifs with hbest
  · exact .inl ⟨hbest, rfl⟩
  · cases hindex : branchingIndex x integer tolerance with
    | some k => exact .inr (.inl ⟨hbest, k, rfl, rfl⟩)
    | none => exact .inr (.inr ⟨hbest, rfl, rfl⟩)

theorem judge_eq_unbounded_iff {integer : Vector Bool n} {tolerance best : α}
    {outcome : Outcome α n} :
    judge integer tolerance best outcome = .unbounded ↔ outcome = .unbounded := by
  constructor
  · intro h
    cases outcome with
    | infeasible => cases h
    | unbounded => rfl
    | optimal x z =>
      obtain ⟨-, hjudge⟩ | ⟨-, k, -, hjudge⟩ | ⟨-, -, hjudge⟩ :=
        judge_optimal_cases integer tolerance best x z
      · cases hjudge.symm.trans h
      · cases hjudge.symm.trans h
      · cases hjudge.symm.trans h
  · rintro rfl
    rfl

/-- Exactly the optimal points that cost more than the incumbent are dropped. -/
theorem judge_eq_fathomed_iff {integer : Vector Bool n} {tolerance best : α}
    {outcome : Outcome α n} :
    judge integer tolerance best outcome = .fathomed ↔
      ∃ x z, outcome = .optimal x z ∧ best < z := by
  constructor
  · intro h
    cases outcome with
    | infeasible => cases h
    | unbounded => cases h
    | optimal x z =>
      obtain ⟨hbest, -⟩ | ⟨-, k, -, hjudge⟩ | ⟨-, -, hjudge⟩ :=
        judge_optimal_cases integer tolerance best x z
      · exact ⟨x, z, rfl, hbest⟩
      · rw [hjudge] at h
        cases h
      · rw [hjudge] at h
        cases h
  · rintro ⟨x, z, rfl, hbest⟩
    exact if_pos hbest

/-- An optimal point that does not cost more than the incumbent is split at its branching index. -/
theorem judge_eq_branched {integer : Vector Bool n} {tolerance best : α} {x : Vector α n} {z : α}
    {k : Fin n} (hbest : ¬ best < z) (hk : branchingIndex x integer tolerance = some k) :
    judge integer tolerance best (.optimal x z) = .branched k (x.get k) := by
  obtain ⟨hcost, -⟩ | ⟨-, index, hindex, hjudge⟩ | ⟨-, hnone, -⟩ :=
    judge_optimal_cases integer tolerance best x z
  · exact absurd hcost hbest
  · cases hindex.symm.trans hk
    exact hjudge
  · cases hnone.symm.trans hk

/-- Only an optimal point is split, at its branching index, and if it does not cost more than the
incumbent. -/
theorem exists_optimal_of_judge_branched {integer : Vector Bool n} {tolerance best value : α}
    {outcome : Outcome α n} {k : Fin n}
    (h : judge integer tolerance best outcome = .branched k value) :
    ∃ x z, outcome = .optimal x z ∧ ¬ best < z ∧ branchingIndex x integer tolerance = some k ∧
      value = x.get k := by
  cases outcome with
  | infeasible => cases h
  | unbounded => cases h
  | optimal x z =>
    obtain ⟨-, hjudge⟩ | ⟨hbest, index, hindex, hjudge⟩ | ⟨-, -, hjudge⟩ :=
      judge_optimal_cases integer tolerance best x z
    · rw [hjudge] at h
      cases h
    · rw [hjudge] at h
      cases h
      exact ⟨x, z, rfl, hbest, hindex, rfl⟩
    · rw [hjudge] at h
      cases h

/-- Only an optimal point is integral, if it has no branching index and does not cost more than the
incumbent. -/
theorem exists_optimal_of_judge_integral {integer : Vector Bool n} {tolerance best : α}
    {outcome : Outcome α n} {improved : Bool}
    (h : judge integer tolerance best outcome = .integral improved) :
    ∃ x z, outcome = .optimal x z ∧ ¬ best < z ∧ branchingIndex x integer tolerance = none ∧
      improved = decide (z < best) := by
  cases outcome with
  | infeasible => cases h
  | unbounded => cases h
  | optimal x z =>
    obtain ⟨-, hjudge⟩ | ⟨-, k, -, hjudge⟩ | ⟨hbest, hindex, hjudge⟩ :=
      judge_optimal_cases integer tolerance best x z
    · rw [hjudge] at h
      cases h
    · rw [hjudge] at h
      cases h
    · rw [hjudge] at h
      cases h
      exact ⟨x, z, rfl, hbest, hindex, rfl⟩

/-- A node has children only if its relaxation has an optimal point, which some branching index
splits and whose cost does not exceed that of the incumbent. -/
theorem mem_children_judge {node child : Node α m n} {integer : Vector Bool n}
    {tolerance best : α} {outcome : Outcome α n}
    (h : child ∈ node.children (judge integer tolerance best outcome)) :
    ∃ x z k side, outcome = .optimal x z ∧ ¬ best < z ∧
      branchingIndex x integer tolerance = some k ∧ child = node.child k (x.get k) side := by
  cases hverdict : judge integer tolerance best outcome with
  | branched k value =>
    obtain ⟨x, z, rfl, hbest, hk, rfl⟩ := exists_optimal_of_judge_branched hverdict
    rw [hverdict] at h
    simp only [Node.children, List.mem_cons, List.not_mem_nil, or_false] at h
    rcases h with rfl | rfl
    · exact ⟨x, z, k, .down, rfl, hbest, hk, rfl⟩
    · exact ⟨x, z, k, .up, rfl, hbest, hk, rfl⟩
  | _ =>
    rw [hverdict] at h
    cases h

/-! ## Steps -/

/-- The results that the relaxation of a node may have, given the number of the node. -/
abbrev Solves (α : Type) (m n : Nat) := Nat → Program α m n → Simplex.Result α n → Prop

/-- The results of relaxations that are computed. -/
def Relaxation.Solves (relax : Relaxation α m n) : Solves α m n := fun number p result ↦
  (relax number p).result = some result

omit [Arithmetic α] in
theorem nodeEvents_ofNode (relaxation : List (Simplex.Event α m n)) (before after : α)
    (event : NodeEvent α n) :
    (Record.ofNode relaxation before after event).filterMap Record.nodeEvent? = [event] := by
  have hiterations : (relaxation.map (Record.iteration (α := α))).filterMap
      Record.nodeEvent? = [] := by
    rw [List.filterMap_eq_nil_iff]
    simp [Record.nodeEvent?]
  unfold Record.ofNode
  rw [List.filterMap_append, List.filterMap_append, hiterations]
  split <;> rfl

omit [Arithmetic α] in
theorem Statistics.count_nodes (s : Statistics) (verdict : Verdict α n) (waiting : Nat) :
    (s.count verdict waiting).nodes = s.nodes + 1 := by
  cases verdict <;> rfl

namespace State

omit [Arithmetic α] in
theorem mem_waiting {state : State α m n} {node : Node α m n} {rest : List (Node α m n)}
    (hwaiting : state.waiting = node :: rest) : node ∈ state.waiting := by
  rw [hwaiting]
  exact List.mem_cons_self

/-- The verdict on the next node, from the outcome of its relaxation. -/
def verdict (tolerance : α) (state : State α m n) (node : Node α m n) (outcome : Outcome α n) :
    Verdict α n :=
  judge node.program.integer tolerance state.incumbent.z outcome

/-- The state after the next node has been judged. -/
def next (tolerance : α) (state : State α m n) (node : Node α m n) (rest : List (Node α m n))
    (outcome : Outcome α n) : State α m n :=
  state.after node rest outcome (state.verdict tolerance node outcome)

/-- A node leaves the incumbent alone, or replaces it by a cheaper point. -/
theorem next_incumbent_cases (tolerance : α) (state : State α m n) (node : Node α m n)
    (rest : List (Node α m n)) (outcome : Outcome α n) :
    (state.next tolerance node rest outcome).incumbent = state.incumbent ∨
      ∃ x z, outcome = .optimal x z ∧ z < state.incumbent.z ∧
        (state.next tolerance node rest outcome).incumbent = { z := z, x := some x } := by
  unfold next after verdict
  cases outcome with
  | infeasible => exact .inl rfl
  | unbounded => exact .inl rfl
  | optimal x z =>
    obtain ⟨-, hjudge⟩ | ⟨-, k, -, hjudge⟩ | ⟨-, -, hjudge⟩ :=
      judge_optimal_cases node.program.integer tolerance state.incumbent.z x z
    · left
      rw [hjudge]
      rfl
    · left
      rw [hjudge]
      rfl
    · by_cases hz : z < state.incumbent.z
      · right
        rw [hjudge, decide_eq_true hz]
        exact ⟨x, z, rfl, hz, rfl⟩
      · left
        rw [hjudge, decide_eq_false hz]
        rfl

/-- The records about the next node. -/
def records (relax : Relaxation α m n) (tolerance : α) (state : State α m n) (node : Node α m n)
    (rest : List (Node α m n)) (outcome : Outcome α n) : List (Record α m n) :=
  Record.ofNode (relax (state.statistics.nodes + 1) node.program).events state.incumbent.z
    (state.next tolerance node rest outcome).incumbent.z (state.report tolerance node rest outcome)

/-- A step after which the search goes on. -/
inductive Continues (solves : Solves α m n) (tolerance : α) (state : State α m n) :
    State α m n → Prop where
  | node (node : Node α m n) (rest : List (Node α m n)) (outcome : Outcome α n)
      (hwaiting : state.waiting = node :: rest)
      (hsolved : solves (state.statistics.nodes + 1) node.program (.ok outcome))
      (hbounded : outcome ≠ .unbounded) :
      Continues solves tolerance state (state.next tolerance node rest outcome)

/-- The end of a search, with its result. -/
inductive Ends (solves : Solves α m n) (tolerance : α) (state : State α m n) :
    Except Simplex.DeadEnd (Finish α n) → Prop where
  | finished (hwaiting : state.waiting = []) : Ends solves tolerance state (.ok state.finish)
  | unbounded (node : Node α m n) (rest : List (Node α m n))
      (hwaiting : state.waiting = node :: rest)
      (hsolved : solves (state.statistics.nodes + 1) node.program (.ok .unbounded)) :
      Ends solves tolerance state (.ok
        { outcome := .unbounded
          statistics := (state.next tolerance node rest .unbounded).statistics })
  | deadEnd (node : Node α m n) (rest : List (Node α m n)) (deadEnd : Simplex.DeadEnd)
      (hwaiting : state.waiting = node :: rest)
      (hsolved : solves (state.statistics.nodes + 1) node.program (.error deadEnd)) :
      Ends solves tolerance state (.error deadEnd)

/-- The states that a search passes through from a state on. -/
abbrev Reaches (solves : Solves α m n) (tolerance : α) : State α m n → State α m n → Prop :=
  Relation.ReflTransGen (Continues solves tolerance)

variable {solves : Solves α m n} {tolerance : α} {state later : State α m n}

theorem Reaches.mono {more : Solves α m n} (hmore : ∀ number p result,
    solves number p result → more number p result) (h : state.Reaches solves tolerance later) :
    state.Reaches more tolerance later := by
  refine Relation.ReflTransGen.mono (fun state next hnext ↦ ?_) _ _ h
  cases hnext with
  | node node rest outcome hwaiting hsolved hbounded =>
    exact .node node rest outcome hwaiting (hmore _ _ _ hsolved) hbounded

theorem Ends.mono {more : Solves α m n} (hmore : ∀ number p result,
    solves number p result → more number p result)
    {result : Except Simplex.DeadEnd (Finish α n)} (h : state.Ends solves tolerance result) :
    state.Ends more tolerance result := by
  cases h with
  | finished hwaiting => exact .finished hwaiting
  | unbounded node rest hwaiting hsolved =>
    exact .unbounded node rest hwaiting (hmore _ _ _ hsolved)
  | deadEnd node rest deadEnd hwaiting hsolved =>
    exact .deadEnd node rest deadEnd hwaiting (hmore _ _ _ hsolved)

/-- What holds of the waiting nodes and passes on to both children of a node that is split holds of
every node that ever waits. -/
theorem Reaches.forall_nodes (Holds : Node α m n → Prop)
    (hsplit : ∀ visited node rest number x z k side, state.Reaches solves tolerance visited →
      visited.waiting = node :: rest → Holds node →
      solves number node.program (.ok (.optimal x z)) →
      branchingIndex x node.program.integer tolerance = some k →
      Holds (node.child k (x.get k) side))
    (h : state.Reaches solves tolerance later) (hstate : ∀ node ∈ state.waiting, Holds node) :
    ∀ node ∈ later.waiting, Holds node := by
  induction h with
  | refl => exact hstate
  | tail hvisited hnext ih =>
    cases hnext with
    | node node rest outcome hwaiting hsolved =>
      intro child hchild
      have hholds := ih node (mem_waiting hwaiting)
      rcases List.mem_append.1 hchild with hrest | hnew
      · apply ih
        rw [hwaiting]
        exact List.mem_cons_of_mem _ hrest
      · obtain ⟨x, z, k, side, rfl, -, hk, rfl⟩ := mem_children_judge hnew
        exact hsplit _ node rest _ x z k side hvisited hwaiting hholds hsolved hk

/-- What holds of the program of the waiting nodes and passes on to both parts of a program that is
split holds of the program of every node that ever waits. -/
theorem Reaches.forall_waiting (Holds : Program α m n → Prop)
    (hsplit : ∀ visited node rest number x z k side, state.Reaches solves tolerance visited →
      visited.waiting = node :: rest → Holds node.program →
      solves number node.program (.ok (.optimal x z)) →
      branchingIndex x node.program.integer tolerance = some k →
      Holds (node.program.tighten k (x.get k) side))
    (h : state.Reaches solves tolerance later)
    (hstate : ∀ node ∈ state.waiting, Holds node.program) :
    ∀ node ∈ later.waiting, Holds node.program :=
  h.forall_nodes (fun node ↦ Holds node.program) hsplit hstate

/-! ## Runs -/

/-- What a run is like, by what becomes of the first node that waits. -/
inductive Unfolds (relax : Relaxation α m n) (tolerance : α) (state : State α m n) :
    Nat → Run α m n → Prop where
  /-- No node waits. -/
  | finished (allowance : Nat) (hwaiting : state.waiting = []) :
      Unfolds relax tolerance state allowance
        { records := [.finished state.statistics.nodes state.finish.outcome.status]
          result := some (.ok state.finish) }
  /-- The allowance of nodes is spent. -/
  | spent (node : Node α m n) (rest : List (Node α m n)) (hwaiting : state.waiting = node :: rest) :
      Unfolds relax tolerance state 0 { records := [], result := none }
  /-- The allowance of iterations is spent in the relaxation. -/
  | unsolved (allowance : Nat) (node : Node α m n) (rest : List (Node α m n))
      (hwaiting : state.waiting = node :: rest)
      (hunsolved : (relax (state.statistics.nodes + 1) node.program).result = none) :
      Unfolds relax tolerance state (allowance + 1)
        { records :=
            (relax (state.statistics.nodes + 1) node.program).events.map .iteration
          result := none }
  | deadEnd (allowance : Nat) (node : Node α m n) (rest : List (Node α m n))
      (deadEnd : Simplex.DeadEnd) (hwaiting : state.waiting = node :: rest)
      (hsolved : relax.Solves (state.statistics.nodes + 1) node.program (.error deadEnd)) :
      Unfolds relax tolerance state (allowance + 1)
        { records :=
            (relax (state.statistics.nodes + 1) node.program).events.map .iteration
          result := some (.error deadEnd) }
  | unbounded (allowance : Nat) (node : Node α m n) (rest : List (Node α m n))
      (hwaiting : state.waiting = node :: rest)
      (hsolved : relax.Solves (state.statistics.nodes + 1) node.program (.ok .unbounded)) :
      Unfolds relax tolerance state (allowance + 1)
        { records :=
            state.records relax tolerance node rest .unbounded ++
              [.stopped (state.statistics.nodes + 1)]
          result := some (.ok
            { outcome := .unbounded
              statistics := (state.next tolerance node rest .unbounded).statistics }) }
  /-- The node is judged, and the search goes on. -/
  | next (allowance : Nat) (node : Node α m n) (rest : List (Node α m n)) (outcome : Outcome α n)
      (hwaiting : state.waiting = node :: rest)
      (hsolved : relax.Solves (state.statistics.nodes + 1) node.program (.ok outcome))
      (hbounded : outcome ≠ .unbounded) :
      Unfolds relax tolerance state (allowance + 1)
        { records :=
            state.records relax tolerance node rest outcome ++
              ((state.next tolerance node rest outcome).run relax tolerance allowance).records
          result := ((state.next tolerance node rest outcome).run relax tolerance
            allowance).result }

theorem unfolds_run (relax : Relaxation α m n) (tolerance : α) (state : State α m n)
    (allowance : Nat) :
    state.Unfolds relax tolerance allowance (state.run relax tolerance allowance) := by
  unfold run
  split
  · rename_i hwaiting
    exact .finished _ hwaiting
  · rename_i node rest hwaiting
    exact .spent node rest hwaiting
  · rename_i allowance node rest hwaiting
    dsimp only
    split
    · rename_i hunsolved
      exact .unsolved allowance node rest hwaiting hunsolved
    · rename_i deadEnd hsolved
      exact .deadEnd allowance node rest deadEnd hwaiting hsolved
    · rename_i outcome hsolved
      split
      · rename_i hverdict
        obtain rfl := judge_eq_unbounded_iff.1 hverdict
        exact .unbounded allowance node rest hwaiting hsolved
      · rename_i hverdict
        refine .next allowance node rest outcome hwaiting hsolved fun houtcome ↦ ?_
        exact hverdict (judge_eq_unbounded_iff.2 houtcome)

section Forward

variable {relax : Relaxation α m n} {allowance : Nat} {node : Node α m n}
  {rest : List (Node α m n)}

theorem run_of_finished (hwaiting : state.waiting = []) :
    (state.run relax tolerance allowance).result = some (.ok state.finish) := by
  have hunfolds := unfolds_run relax tolerance state allowance
  generalize state.run relax tolerance allowance = run at hunfolds ⊢
  cases hunfolds with
  | finished => rfl
  | _ => cases hwaiting.symm.trans ‹state.waiting = _ :: _›

/-- A run whose next relaxation has an outcome stops if the outcome is unbounded, and goes on from
the next state if it is not. -/
theorem run_of_outcome (hwaiting : state.waiting = node :: rest) {outcome : Outcome α n}
    (hsolved : relax.Solves (state.statistics.nodes + 1) node.program (.ok outcome)) :
    (outcome = .unbounded ∧
      (state.run relax tolerance (allowance + 1)).result = some (.ok
        { outcome := .unbounded
          statistics := (state.next tolerance node rest .unbounded).statistics })) ∨
      (outcome ≠ .unbounded ∧
        (state.run relax tolerance (allowance + 1)).result =
          ((state.next tolerance node rest outcome).run relax tolerance allowance).result) := by
  have hunfolds := unfolds_run relax tolerance state (allowance + 1)
  generalize state.run relax tolerance (allowance + 1) = run at hunfolds ⊢
  cases hunfolds with
  | finished _ hnone => cases hwaiting.symm.trans hnone
  | unsolved _ _ _ hother hunsolved =>
    cases hwaiting.symm.trans hother
    cases hsolved.symm.trans hunsolved
  | deadEnd _ _ _ _ hother hdeadEnd =>
    cases hwaiting.symm.trans hother
    cases hsolved.symm.trans hdeadEnd
  | unbounded _ _ _ hother hunbounded =>
    cases hwaiting.symm.trans hother
    cases hsolved.symm.trans hunbounded
    exact .inl ⟨rfl, rfl⟩
  | next _ _ _ _ hother hnext hbounded =>
    cases hwaiting.symm.trans hother
    cases hsolved.symm.trans hnext
    exact .inr ⟨hbounded, rfl⟩

theorem run_of_next (hwaiting : state.waiting = node :: rest) {outcome : Outcome α n}
    (hsolved : relax.Solves (state.statistics.nodes + 1) node.program (.ok outcome))
    (hbounded : outcome ≠ .unbounded) :
    (state.run relax tolerance (allowance + 1)).result =
      ((state.next tolerance node rest outcome).run relax tolerance allowance).result :=
  ((run_of_outcome hwaiting hsolved).resolve_left fun h ↦ hbounded h.1).2

theorem run_of_unbounded (hwaiting : state.waiting = node :: rest)
    (hsolved : relax.Solves (state.statistics.nodes + 1) node.program (.ok .unbounded)) :
    (state.run relax tolerance (allowance + 1)).result = some (.ok
      { outcome := .unbounded
        statistics := (state.next tolerance node rest .unbounded).statistics }) :=
  ((run_of_outcome hwaiting hsolved).resolve_right fun h ↦ h.1 rfl).2

end Forward

/-- A run with a result has passed through the state in which the search ends. -/
theorem exists_end {result : Except Simplex.DeadEnd (Finish α n)}
    (h : (state.run relax tolerance allowance).result = some result) :
    ∃ last, state.Reaches relax.Solves tolerance last ∧
      last.Ends relax.Solves tolerance result := by
  induction allowance using Nat.strongRecOn generalizing state with
  | ind allowance ih =>
    have hunfolds := unfolds_run relax tolerance state allowance
    generalize state.run relax tolerance allowance = run at h hunfolds
    cases hunfolds with
    | finished _ hwaiting =>
      cases h
      exact ⟨state, .refl, .finished hwaiting⟩
    | spent => cases h
    | unsolved => cases h
    | deadEnd _ node rest deadEnd hwaiting hsolved =>
      cases h
      exact ⟨state, .refl, .deadEnd node rest deadEnd hwaiting hsolved⟩
    | unbounded _ node rest hwaiting hsolved =>
      cases h
      exact ⟨state, .refl, .unbounded node rest hwaiting hsolved⟩
    | next allowance node rest outcome hwaiting hsolved hbounded =>
      obtain ⟨last, hreaches, hends⟩ := ih allowance (Nat.lt_succ_self _) h
      exact ⟨last, .head (.node node rest outcome hwaiting hsolved hbounded) hreaches, hends⟩

/-- Every event of a run is the report on a node whose relaxation has been solved. -/
theorem exists_report {event : NodeEvent α n}
    (h : event ∈ (state.run relax tolerance allowance).records.filterMap Record.nodeEvent?) :
    ∃ later node rest outcome, state.Reaches relax.Solves tolerance later ∧
      later.waiting = node :: rest ∧
      relax.Solves (later.statistics.nodes + 1) node.program (.ok outcome) ∧
      event = later.report tolerance node rest outcome := by
  induction allowance using Nat.strongRecOn generalizing state with
  | ind allowance ih =>
    have hunfolds := unfolds_run relax tolerance state allowance
    generalize state.run relax tolerance allowance = run at h hunfolds
    cases hunfolds with
    | finished => simp [Record.nodeEvent?] at h
    | spent => cases h
    | unsolved => simp [Record.nodeEvent?] at h
    | deadEnd => simp [Record.nodeEvent?] at h
    | unbounded _ node rest hwaiting hsolved =>
      rw [List.filterMap_append, records, nodeEvents_ofNode] at h
      have hevent : event = state.report tolerance node rest .unbounded := by
        simpa [Record.nodeEvent?] using h
      exact ⟨state, node, rest, .unbounded, .refl, hwaiting, hsolved, hevent⟩
    | next allowance node rest outcome hwaiting hsolved hbounded =>
      rw [List.filterMap_append, records, nodeEvents_ofNode] at h
      rcases List.mem_cons.1 h with hevent | hlater
      · exact ⟨state, node, rest, outcome, .refl, hwaiting, hsolved, hevent⟩
      · obtain ⟨later, node', rest', outcome', hreaches, hreport⟩ :=
          ih allowance (Nat.lt_succ_self _) hlater
        exact ⟨later, node', rest', outcome',
          .head (.node node rest outcome hwaiting hsolved hbounded) hreaches, hreport⟩

end State

end Search

end MixedInteger
