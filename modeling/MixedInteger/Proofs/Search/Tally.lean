import MixedInteger.Proofs.Search.Coverage
import MixedInteger.Proofs.Search.Turns

/-!
# The statistics of a search

A search counts its nodes, what became of them, and how many waited at one time, in counters that
one step updates here and another there.  Whatever the relaxations answer, the counters agree with
each other and with the events that observers are told: every node is counted under its verdict,
and since a split replaces one waiting node by two, the number of splits determines how many nodes
wait.
-/

namespace MixedInteger

namespace Search

variable {α : Type} {m n : Nat}

/-! ## Counting verdicts -/

/-- The verdict splits the node. -/
def Verdict.splits : Verdict α n → Bool
  | .branched _ _ => true
  | _ => false

/-- The verdict ends the search. -/
def Verdict.stops : Verdict α n → Bool
  | .unbounded => true
  | _ => false

/-- How many of the events split their node. -/
def splits (events : List (NodeEvent α n)) : Nat :=
  events.countP (·.verdict.splits)

/-- How many of the events end the search. -/
def stops (events : List (NodeEvent α n)) : Nat :=
  events.countP (·.verdict.stops)

theorem splits_concat (events : List (NodeEvent α n)) (event : NodeEvent α n) :
    splits (events ++ [event]) = splits events + event.verdict.splits.toNat := by
  rw [splits, List.countP_append, List.countP_singleton, splits, Bool.toNat, Bool.cond_eq_ite]

theorem stops_concat (events : List (NodeEvent α n)) (event : NodeEvent α n) :
    stops (events ++ [event]) = stops events + event.verdict.stops.toNat := by
  rw [stops, List.countP_append, List.countP_singleton, stops, Bool.toNat, Bool.cond_eq_ite]

/-- The nodes that have been given a verdict other than the one that ends the search. -/
def Statistics.judged (s : Statistics) : Nat :=
  s.infeasible + s.fathomed + s.integral + s.branched

theorem Statistics.count_judged (s : Statistics) (verdict : Verdict α n) (waiting : Nat) :
    (s.count verdict waiting).judged + verdict.stops.toNat = s.judged + 1 := by
  cases verdict <;> simp only [Statistics.count, Statistics.judged, Verdict.stops,
    Bool.toNat_false, Bool.toNat_true] <;> omega

theorem Statistics.count_branched (s : Statistics) (verdict : Verdict α n) (waiting : Nat) :
    (s.count verdict waiting).branched = s.branched + verdict.splits.toNat := by
  cases verdict <;> rfl

theorem Statistics.count_peak (s : Statistics) (verdict : Verdict α n) (waiting : Nat) :
    (s.count verdict waiting).peak = max s.peak waiting := by
  cases verdict <;> rfl

theorem Statistics.count_improved_le {s : Statistics} (h : s.improved ≤ s.integral)
    (verdict : Verdict α n) (waiting : Nat) :
    (s.count verdict waiting).improved ≤ (s.count verdict waiting).integral := by
  cases verdict with
  | integral improved =>
    cases improved with
    | true => exact Nat.succ_le_succ h
    | false => exact Nat.le_succ_of_le h
  | _ => exact h

variable [Arithmetic α]

/-- A split replaces the node by two. -/
theorem Node.length_children (node : Node α m n) (verdict : Verdict α n) :
    (node.children verdict).length = 2 * verdict.splits.toNat := by
  cases verdict <;> rfl

theorem Turn.stops_verdict {tolerance : α} {turn : Turn α m n} :
    (turn.verdict tolerance).stops = true ↔ turn.outcome = .unbounded := by
  rw [← turn.verdict_eq_unbounded_iff tolerance]
  cases turn.verdict tolerance <;> simp [Verdict.stops]

theorem stops_events_eq_zero {tolerance : α} {turns : List (Turn α m n)}
    (h : ∀ turn ∈ turns, turn.outcome ≠ .unbounded) :
    stops (turns.map (Turn.event tolerance)) = 0 := by
  rw [stops, List.countP_eq_zero]
  intro event hevent
  obtain ⟨turn, hturn, rfl⟩ := List.mem_map.1 hevent
  exact fun hstops ↦ h turn hturn (Turn.stops_verdict.1 hstops)

/-- There is an incumbent once it has been replaced. -/
theorem Turn.isSome_after {tolerance : α} {turn : Turn α m n}
    (h : turn.state.incumbent.x.isSome ↔ 1 ≤ turn.state.statistics.improved) :
    (turn.after tolerance).incumbent.x.isSome ↔ 1 ≤ (turn.after tolerance).statistics.improved := by
  rw [after_incumbent, after_statistics]
  cases hverdict : turn.verdict tolerance with
  | integral improved =>
    obtain ⟨x, z, houtcome, -⟩ := exists_optimal_of_judge_integral hverdict
    cases improved with
    | true =>
      rw [houtcome]
      exact iff_of_true rfl (Nat.le_add_left _ _)
    | false => exact h
  | _ => exact h

/-! ## The books of a search -/

/-- The counters of a state agree with the events so far and with the nodes that wait. -/
structure Accounts (events : List (NodeEvent α n)) (state : State α m n) : Prop where
  nodes : state.statistics.nodes = events.length
  verdicts : state.statistics.nodes = state.statistics.judged + stops events
  branched : state.statistics.branched = splits events
  waiting : state.waiting.length + state.statistics.nodes = 1 + 2 * state.statistics.branched
  peak : state.statistics.peak ≤ state.statistics.branched + 1
  improved : state.statistics.improved ≤ state.statistics.integral
  incumbent : state.incumbent.x.isSome ↔ 1 ≤ state.statistics.improved

theorem accounts_start (root : Program α m n) : Accounts [] (State.start root) where
  nodes := rfl
  verdicts := rfl
  branched := rfl
  waiting := rfl
  peak := Nat.le_refl _
  improved := Nat.le_refl _
  incumbent := by simp [State.start, Incumbent.none, Statistics.start]

section Turn

variable {solves : Solves α m n} {tolerance : α} {turn : Turn α m n}
  {events : List (NodeEvent α n)}

/-- The node of a turn leaves the queue, and its children enter it. -/
theorem Turn.Taken.length_after (htaken : turn.Taken solves) (tolerance : α) :
    (turn.after tolerance).waiting.length + 1 =
      turn.state.waiting.length + 2 * (turn.verdict tolerance).splits.toNat := by
  rw [after_waiting, List.length_append, Node.length_children, htaken.waiting, List.length_cons]
  omega

/-- A turn keeps the books. -/
theorem Accounts.after (h : Accounts events turn.state) (htaken : turn.Taken solves) :
    Accounts (events ++ [turn.event tolerance]) (turn.after tolerance) := by
  have hnodes : (turn.after tolerance).statistics.nodes = turn.state.statistics.nodes + 1 := by
    rw [Turn.after_statistics, Statistics.count_nodes]
  have hbranched : (turn.after tolerance).statistics.branched =
      turn.state.statistics.branched + (turn.verdict tolerance).splits.toNat := by
    rw [Turn.after_statistics, Statistics.count_branched]
  have hjudged : (turn.after tolerance).statistics.judged + (turn.verdict tolerance).stops.toNat =
      turn.state.statistics.judged + 1 := by
    rw [Turn.after_statistics, Statistics.count_judged]
  have hverdicts : (turn.after tolerance).statistics.nodes =
      (turn.after tolerance).statistics.judged + stops (events ++ [turn.event tolerance]) := by
    have hbefore := h.verdicts
    rw [stops_concat, Turn.event_verdict]
    omega
  have hwaiting : (turn.after tolerance).waiting.length +
      (turn.after tolerance).statistics.nodes =
        1 + 2 * (turn.after tolerance).statistics.branched := by
    have hbefore := h.waiting
    have hlength := htaken.length_after tolerance
    omega
  have hpeak : (turn.after tolerance).statistics.peak ≤
      (turn.after tolerance).statistics.branched + 1 := by
    have hbefore := h.peak
    have hsplit : (turn.after tolerance).statistics.branched ≤
        (turn.after tolerance).statistics.judged := Nat.le_add_left _ _
    have hmax : (turn.after tolerance).statistics.peak =
        max turn.state.statistics.peak (turn.after tolerance).waiting.length :=
      Statistics.count_peak _ _ _
    omega
  exact {
    nodes := by rw [hnodes, h.nodes, List.length_append, List.length_singleton]
    verdicts := hverdicts
    branched := by rw [hbranched, h.branched, splits_concat, Turn.event_verdict]
    waiting := hwaiting
    peak := hpeak
    improved := Statistics.count_improved_le h.improved _ _
    incumbent := Turn.isSome_after h.incumbent }

end Turn

section Takes

variable {solves : Solves α m n} {tolerance : α} {root : Program α m n} {last : State α m n}
  {turns : List (Turn α m n)}

/-- The books are kept at every point of a search. -/
theorem State.Takes.accounts (h : (State.start root).Takes solves tolerance turns last) :
    Accounts (turns.map (Turn.event tolerance)) last := by
  induction h with
  | start => exact accounts_start root
  | turn earlier turn _ htaken _ ih =>
    rw [List.map_append]
    exact ih.after htaken

/-- The peak is the greatest length that the queue has after a turn, or at the start. -/
theorem State.Takes.peak (h : (State.start root).Takes solves tolerance turns last) :
    (1 :: turns.map fun turn ↦ (turn.after tolerance).waiting.length).max? =
      some last.statistics.peak := by
  rw [List.max?_cons']
  induction h with
  | start => rfl
  | turn earlier turn _ htaken _ ih =>
    rw [List.map_append, List.foldl_append, Option.some.inj ih, Turn.after_statistics,
      Statistics.count_peak]
    rfl

/-- Every turn leaves as many nodes waiting as the splits so far say. -/
theorem State.Takes.waiting_after (h : (State.start root).Takes solves tolerance turns last)
    {turn : Turn α m n} (hturn : turn ∈ turns) :
    (turn.after tolerance).waiting.length + (turn.after tolerance).statistics.nodes =
      1 + 2 * (turn.after tolerance).statistics.branched := by
  obtain ⟨i, hi⟩ := List.getElem?_of_mem hturn
  obtain ⟨hearlier, htaken⟩ := h.take hi
  exact (hearlier.accounts.after htaken).waiting

/-! ## Events and ends -/

/-- The events are numbered in their order, and tell how many nodes wait behind each. -/
def Numbered (events : List (NodeEvent α n)) : Prop :=
  ∀ i event, events[i]? = some event →
    event.node = i + 1 ∧ event.waiting + event.node = 2 * splits (events.take i) + 1

theorem State.Takes.numbered (h : (State.start root).Takes solves tolerance turns last) :
    Numbered (turns.map (Turn.event tolerance)) := by
  intro i event hevent
  obtain ⟨turn, -, rfl, htaken, earlier, hearlier, rfl, -, hevents⟩ := h.exists_turn_of_event hevent
  have haccounts := hearlier.accounts
  have hnodes := haccounts.nodes
  have hbranched := haccounts.branched
  have hwaiting := haccounts.waiting
  rw [List.length_map] at hnodes
  rw [hevents] at hbranched
  rw [htaken.waiting, List.length_cons] at hwaiting
  rw [Turn.event_node, Turn.event_waiting]
  omega

/-- The counters of a finished search agree with each other and with its outcome. -/
structure Finish.Balanced (finish : Finish α n) : Prop where
  verdicts : finish.statistics.nodes =
    finish.statistics.infeasible + finish.statistics.fathomed + finish.statistics.integral +
      finish.statistics.branched + if finish.outcome.status = .unbounded then 1 else 0
  branched : finish.outcome.status ≠ .unbounded →
    finish.statistics.nodes = 1 + 2 * finish.statistics.branched
  improved : finish.statistics.improved ≤ finish.statistics.integral
  optimal : finish.outcome.status ≠ .unbounded →
    (finish.outcome.status = .optimal ↔ 1 ≤ finish.statistics.improved)
  peak : finish.statistics.peak ≤ finish.statistics.branched + 1

omit [Arithmetic α] in
theorem State.status_finish (state : State α m n) :
    state.finish.outcome.status =
      if state.incumbent.x.isSome then .optimal else .infeasible := by
  unfold finish
  cases state.incumbent.x <;> rfl

/-- Without an unbounded relaxation no turn ends the search, and otherwise exactly one does. -/
theorem State.Takes.stops_of_closes (h : (State.start root).Takes solves tolerance turns last)
    {finish : Finish α n} (hcloses : State.Closes turns last finish) :
    stops (turns.map (Turn.event tolerance)) =
      if finish.outcome.status = .unbounded then 1 else 0 := by
  cases hcloses with
  | finished hwaiting hbounded =>
    rw [stops_events_eq_zero hbounded, State.status_finish]
    split_ifs <;> simp_all
  | unbounded turn hturn houtcome =>
    cases h with
    | start => cases hturn
    | turn earlier visited _ _ hbounded =>
      rcases List.mem_append.1 hturn with hearlier | hlast
      · exact absurd houtcome (hbounded turn hearlier)
      · obtain rfl := List.mem_singleton.1 hlast
        rw [List.map_append, List.map_singleton, stops_concat, stops_events_eq_zero hbounded,
          Turn.event_verdict, Turn.stops_verdict.2 houtcome]
        rfl

theorem State.Takes.balanced (h : (State.start root).Takes solves tolerance turns last)
    {finish : Finish α n} (hcloses : State.Closes turns last finish) :
    finish.Balanced ∧ finish.statistics = last.statistics := by
  have haccounts := h.accounts
  have hverdicts := haccounts.verdicts
  rw [h.stops_of_closes hcloses] at hverdicts
  cases hcloses with
  | finished hwaiting hbounded =>
    have hqueue := haccounts.waiting
    rw [hwaiting, List.length_nil, Nat.zero_add] at hqueue
    have hoptimal : last.finish.outcome.status = .optimal ↔ 1 ≤ last.statistics.improved := by
      rw [State.status_finish, ← haccounts.incumbent]
      cases last.incumbent.x.isSome <;> simp
    exact ⟨⟨hverdicts, fun _ ↦ hqueue, haccounts.improved, fun _ ↦ hoptimal, haccounts.peak⟩, rfl⟩
  | unbounded turn hturn houtcome =>
    exact ⟨⟨hverdicts, fun h ↦ absurd rfl h, haccounts.improved, fun h ↦ absurd rfl h,
      haccounts.peak⟩, rfl⟩

end Takes

end Search

namespace Model

open Search ExtendedRational

variable {α : Type} [Arithmetic α] {m n : Nat}

omit [Arithmetic α] in
theorem answered_status (model : Model α) (outcome : Outcome α n) :
    (model.answered outcome).status = outcome.status := by
  cases outcome <;> rfl

/-- A summary comes from a valid model and from the end of its search, of which observers see all
records, and it has the status that the model then shows. -/
theorem exists_finish_of_summary {model : Model α} {settings : Settings α} {allowance : Allowance}
    {summary : Summary} (h : (model.solve settings allowance).result = some (.ok summary)) :
    ∃ p finish, model.validate = .ok p ∧
      (model.solve settings allowance).records = (model.search p settings allowance).records ∧
      (model.search p settings allowance).result = some (.ok finish) ∧
      summary = { status := finish.outcome.status, statistics := finish.statistics } ∧
      (model.solve settings allowance).after.status = summary.status := by
  cases hvalid : model.validate with
  | error defect =>
    unfold solve at h
    rw [hvalid] at h
    cases h
  | ok p =>
    obtain ⟨finish, hsearch, rfl, hafter⟩ := exists_finish_of_solve hvalid h
    exact ⟨p, finish, rfl, records_solve hvalid, hsearch, rfl, by rw [hafter, answered_status]⟩

/-- Whatever the relaxations answer, the turns of a search are told one by one and numbered in
their order, every turn leaves as many nodes waiting as the splits so far say, and the counters at
the end agree with each other and with the outcome.  An attempt shows the records of its search, and
its summary consists of these counters and of the status that the model then shows. -/
theorem statistics_agree (relax : Relaxation α m n) (tolerance : α) (nodes : Nat)
    (root : Program α m n) (model : Model α) (settings : Settings α) (allowance : Allowance) :
    (∃ turns last, (State.start root).Takes relax.Solves tolerance turns last ∧
      (Search.run relax tolerance nodes root).records.filterMap Record.nodeEvent? =
        turns.map (Turn.event tolerance) ∧
      Numbered (turns.map (Turn.event tolerance)) ∧
      (∀ turn ∈ turns, (turn.after tolerance).waiting.length +
        (turn.after tolerance).statistics.nodes =
          1 + 2 * (turn.after tolerance).statistics.branched) ∧
      ∀ finish, (Search.run relax tolerance nodes root).result = some (.ok finish) →
        finish.Balanced ∧ finish.statistics.nodes = turns.length ∧
        (1 :: turns.map fun turn ↦ (turn.after tolerance).waiting.length).max? =
          some finish.statistics.peak) ∧
    ∀ summary, (model.solve settings allowance).result = some (.ok summary) →
      ∃ p finish, model.validate = .ok p ∧
        (model.solve settings allowance).records = (model.search p settings allowance).records ∧
        (model.search p settings allowance).result = some (.ok finish) ∧
        summary = { status := finish.outcome.status, statistics := finish.statistics } ∧
        (model.solve settings allowance).after.status = summary.status := by
  refine ⟨?_, fun summary hsummary ↦ exists_finish_of_summary hsummary⟩
  obtain ⟨turns, last, htakes, hevents, hcloses⟩ :=
    State.exists_turns relax tolerance nodes (State.start root)
  refine ⟨turns, last, htakes, hevents, htakes.numbered, fun turn ↦ htakes.waiting_after,
    fun finish hfinish ↦ ?_⟩
  obtain ⟨hbalanced, hstatistics⟩ := htakes.balanced (hcloses finish hfinish)
  have hnodes := htakes.accounts.nodes
  rw [List.length_map] at hnodes
  rw [hstatistics]
  exact ⟨hbalanced, hnodes, htakes.peak⟩

theorem packing_statistics :
    ∃ finish, (packing.search packingProgram ⟨finite 0, finite 0⟩ ⟨20, 20⟩).result =
        some (.ok finish) ∧
      finish.Balanced ∧ finish.statistics = ⟨5, 1, 0, 2, 1, 2, 2⟩ ∧
      (packing.solve ⟨finite 0, finite 0⟩ ⟨20, 20⟩).after.status = .optimal := by
  have hsolved : (packing.solve ⟨finite 0, finite 0⟩ ⟨20, 20⟩).result =
      some (.ok ⟨.optimal, ⟨5, 1, 0, 2, 1, 2, 2⟩⟩) := by
    with_unfolding_all decide
  obtain ⟨⟨turns, last, -, -, -, -, hends⟩, hsummaries⟩ :=
    statistics_agree (simplexRuns (finite 0) 20) (finite 0) 20 packingProgram packing
      ⟨finite 0, finite 0⟩ ⟨20, 20⟩
  obtain ⟨p, finish, hvalid, -, hsearch, hsummary, hstatus⟩ := hsummaries _ hsolved
  obtain rfl : packingProgram = p := Except.ok.inj hvalid
  exact ⟨finish, hsearch, (hends finish hsearch).1, (congrArg Summary.statistics hsummary).symm,
    hstatus⟩

end Model

end MixedInteger
