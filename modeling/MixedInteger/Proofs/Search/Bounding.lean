import MixedInteger.Proofs.Search.Coverage
import MixedInteger.Proofs.Search.Turns

/-!
# Incumbents and bounds

The incumbent of a search is a variable that single turns read and write.  Its history says what it
stands for: at every turn it has the least cost of the integral turns so far, and among those of
least cost it is the first, since only a smaller cost replaces it.  So a node is dropped exactly
when its relaxation costs more than an integral point that is already known.

All this is about exact arithmetic, in which relaxations have rational costs.  The tolerances may be
any that are not negative.
-/

open Matrix

namespace MixedInteger

open Arithmetic ExtendedRational

namespace Search

variable {m n : ℕ}

/-! ## Integral costs -/

/-- The cost of the relaxation, if its point is integral. -/
def NodeEvent.integralCost? {α : Type} (event : NodeEvent α n) : Option α :=
  match event.verdict with
  | .integral _ => event.z
  | _ => none

/-- The value is the least cost of the integral events, and missing if there is none. -/
def LeastIntegral (events : List (NodeEvent ExtendedRational n)) :
    Option ExtendedRational → Prop
  | none => ∀ event ∈ events, event.integralCost? = none
  | some z => (∃ event ∈ events, event.integralCost? = some z) ∧
      ∀ event ∈ events, ∀ w, event.integralCost? = some w → z ≤ w

/-- How an event relates to the events before it. -/
structure NodeEvent.Lawful (earlier : List (NodeEvent ExtendedRational n))
    (event : NodeEvent ExtendedRational n) : Prop where
  incumbent : LeastIntegral earlier event.incumbent
  fathomed : event.verdict = .fathomed ↔
    ∃ z w, event.z = some z ∧ event.incumbent = some w ∧ w < z
  integral : ∀ improved, event.verdict = .integral improved → ∃ z, event.z = some z ∧
    (improved = true ↔ event.incumbent = none ∨ ∃ w, event.incumbent = some w ∧ z < w)
  branched : ∀ k value, event.verdict = .branched k value → ∃ z, event.z = some z ∧
    ∀ w, event.incumbent = some w → z ≤ w

section Turns

variable {tolerance : ExtendedRational} {turns : List (Turn ExtendedRational m n)}
  {turn : Turn ExtendedRational m n}

/-- The cost of a turn whose relaxation has an integral point. -/
def Turn.integralCost? (tolerance : ExtendedRational) (turn : Turn ExtendedRational m n) :
    Option ExtendedRational :=
  (turn.event tolerance).integralCost?

/-- Costs of relaxations are rational. -/
def Turn.Rational (turn : Turn ExtendedRational m n) : Prop :=
  ∀ x z, turn.outcome = .optimal x z → ∃ q : ℚ, z = finite q

theorem Turn.integralCost?_of_integral {improved : Bool}
    (h : turn.verdict tolerance = .integral improved) :
    turn.integralCost? tolerance = turn.outcome.cost? := by
  unfold integralCost? NodeEvent.integralCost?
  rw [event_verdict, h, event_z]

theorem Turn.integralCost?_eq_some {z : ExtendedRational}
    (h : turn.integralCost? tolerance = some z) :
    ∃ x improved, turn.outcome = .optimal x z ∧ turn.verdict tolerance = .integral improved := by
  cases hverdict : turn.verdict tolerance with
  | integral improved =>
    rw [integralCost?_of_integral hverdict] at h
    obtain ⟨x, houtcome⟩ := turn.exists_optimal_of_cost? h
    exact ⟨x, improved, houtcome, rfl⟩
  | _ =>
    unfold integralCost? NodeEvent.integralCost? at h
    rw [event_verdict, hverdict] at h
    cases h

theorem Turn.Rational.integralCost? (h : turn.Rational) {z : ExtendedRational}
    (hz : turn.integralCost? tolerance = some z) : ∃ q : ℚ, z = finite q := by
  obtain ⟨x, -, houtcome, -⟩ := turn.integralCost?_eq_some hz
  exact h x z houtcome

/-- The turn is the first one at which an integral point has the least cost. -/
def FirstLeast (tolerance : ExtendedRational) (turns : List (Turn ExtendedRational m n))
    (turn : Turn ExtendedRational m n) (z : ExtendedRational) : Prop :=
  turn.integralCost? tolerance = some z ∧ ∃ earlier later, turns = earlier ++ turn :: later ∧
    (∀ visited ∈ earlier, ∀ w, visited.integralCost? tolerance = some w → z < w) ∧
    ∀ visited ∈ later, ∀ w, visited.integralCost? tolerance = some w → z ≤ w

/-- A turn that costs less than all before it is the first of least cost. -/
theorem firstLeast_concat {z : ExtendedRational} (hturn : turn.integralCost? tolerance = some z)
    (h : ∀ visited ∈ turns, ∀ w, visited.integralCost? tolerance = some w → z < w) :
    FirstLeast tolerance (turns ++ [turn]) turn z :=
  ⟨hturn, turns, [], rfl, h, fun _ hvisited ↦ by cases hvisited⟩

theorem FirstLeast.concat {z : ExtendedRational} {next : Turn ExtendedRational m n}
    (h : FirstLeast tolerance turns turn z)
    (hnext : ∀ w, next.integralCost? tolerance = some w → z ≤ w) :
    FirstLeast tolerance (turns ++ [next]) turn z := by
  obtain ⟨hturn, earlier, later, rfl, hearlier, hlater⟩ := h
  refine ⟨hturn, earlier, later ++ [next], by simp, hearlier, fun visited hvisited w hw ↦ ?_⟩
  rcases List.mem_append.1 hvisited with hvisited | hvisited
  · exact hlater visited hvisited w hw
  · obtain rfl := List.mem_singleton.1 hvisited
    exact hnext w hw

theorem FirstLeast.le {q : ℚ} (h : FirstLeast tolerance turns turn (finite q))
    {visited : Turn ExtendedRational m n} (hvisited : visited ∈ turns) {w : ExtendedRational}
    (hw : visited.integralCost? tolerance = some w) : finite q ≤ w := by
  obtain ⟨hturn, earlier, later, rfl, hearlier, hlater⟩ := h
  rcases List.mem_append.1 hvisited with hvisited | hvisited
  · exact ExtendedRational.le_of_lt (hearlier visited hvisited w hw)
  · rcases List.mem_cons.1 hvisited with rfl | hvisited
    · obtain rfl : finite q = w := Option.some.inj (hturn.symm.trans hw)
      exact finite_le.2 le_rfl
    · exact hlater visited hvisited w hw

theorem FirstLeast.mem {z : ExtendedRational} (h : FirstLeast tolerance turns turn z) :
    turn ∈ turns := by
  obtain ⟨-, earlier, later, rfl, -⟩ := h
  exact List.mem_append_right _ List.mem_cons_self

/-! ## What the incumbent stands for -/

/-- There is no incumbent and no integral turn, or the incumbent is the relaxed point of the first
integral turn of least cost. -/
inductive Incumbent.Leads (tolerance : ExtendedRational)
    (turns : List (Turn ExtendedRational m n)) : Incumbent ExtendedRational n → Prop where
  | nothing (hnone : ∀ turn ∈ turns, turn.integralCost? tolerance = Option.none) :
      Leads tolerance turns .none
  | turn (turn : Turn ExtendedRational m n) (x : Vector ExtendedRational n) (q : ℚ)
      (houtcome : turn.outcome = .optimal x (finite q))
      (hfirst : FirstLeast tolerance turns turn (finite q)) :
      Leads tolerance turns { z := finite q, x := some x }

variable {incumbent : Incumbent ExtendedRational n}

theorem Incumbent.Leads.leastIntegral (h : incumbent.Leads tolerance turns) :
    LeastIntegral (turns.map (Turn.event tolerance)) incumbent.value? := by
  cases h with
  | nothing hnone =>
    intro event hevent
    obtain ⟨turn, hturn, rfl⟩ := List.mem_map.1 hevent
    exact hnone turn hturn
  | turn turn x q houtcome hfirst =>
    refine ⟨⟨turn.event tolerance, List.mem_map_of_mem hfirst.mem, hfirst.1⟩, ?_⟩
    intro event hevent w hw
    obtain ⟨visited, hvisited, rfl⟩ := List.mem_map.1 hevent
    exact hfirst.le hvisited hw

/-- A rational cost compares with the incumbent as with the cost that events show for it. -/
theorem Incumbent.Leads.lt_iff (h : incumbent.Leads tolerance turns) (q : ℚ) :
    incumbent.z < finite q ↔ ∃ w, incumbent.value? = some w ∧ w < finite q := by
  cases h with
  | nothing => exact iff_of_false (not_lt_of_le (finite_le_infinity q)) nofun
  | turn turn x v =>
    constructor
    · exact fun hless ↦ ⟨finite v, rfl, hless⟩
    · rintro ⟨w, hw, hless⟩
      cases hw
      exact hless

theorem Incumbent.Leads.gt_iff (h : incumbent.Leads tolerance turns) (q : ℚ) :
    finite q < incumbent.z ↔
      incumbent.value? = Option.none ∨ ∃ w, incumbent.value? = some w ∧ finite q < w := by
  cases h with
  | nothing => exact iff_of_true rfl (.inl rfl)
  | turn turn x v =>
    constructor
    · exact fun hless ↦ .inr ⟨finite v, rfl, hless⟩
    · rintro (hnone | ⟨w, hw, hless⟩)
      · cases hnone
      · cases hw
        exact hless

theorem Incumbent.Leads.le_of_not_lt (h : incumbent.Leads tolerance turns) {q : ℚ}
    (hbest : ¬ incumbent.z < finite q) {w : ExtendedRational} (hw : incumbent.value? = some w) :
    finite q ≤ w := by
  cases h with
  | nothing => cases hw
  | turn turn x v =>
    cases hw
    exact finite_le.2 (not_lt.1 fun hless ↦ hbest (finite_lt.2 hless))

/-- The incumbent goes on leading through a turn that costs no less. -/
theorem Incumbent.Leads.concat (h : incumbent.Leads tolerance turns) (hrational : turn.Rational)
    (hturn : ∀ w, turn.integralCost? tolerance = some w → ¬ w < incumbent.z) :
    incumbent.Leads tolerance (turns ++ [turn]) := by
  cases h with
  | nothing hnone =>
    refine .nothing fun visited hvisited ↦ ?_
    rcases List.mem_append.1 hvisited with hvisited | hvisited
    · exact hnone visited hvisited
    · obtain rfl := List.mem_singleton.1 hvisited
      cases hcost : visited.integralCost? tolerance with
      | none => rfl
      | some w =>
        obtain ⟨q, rfl⟩ := hrational.integralCost? hcost
        exact absurd rfl (hturn _ hcost)
  | turn first x q houtcome hfirst =>
    refine .turn first x q houtcome (hfirst.concat fun w hw ↦ ?_)
    obtain ⟨v, rfl⟩ := hrational.integralCost? hw
    have hle := hturn _ hw
    rw [finite_lt, not_lt] at hle
    exact finite_le.2 hle

/-- A cheaper integral turn takes the lead. -/
theorem Incumbent.Leads.replaced (h : incumbent.Leads tolerance turns)
    {x : Vector ExtendedRational n} {q : ℚ} (houtcome : turn.outcome = .optimal x (finite q))
    (hcost : turn.integralCost? tolerance = some (finite q)) (hless : finite q < incumbent.z) :
    Incumbent.Leads tolerance (turns ++ [turn]) { z := finite q, x := some x } := by
  refine .turn turn x q houtcome (firstLeast_concat hcost fun visited hvisited w hw ↦ ?_)
  cases h with
  | nothing hnone =>
    rw [hnone visited hvisited] at hw
    cases hw
  | turn first y v hfirst hleast =>
    have hle := hleast.le hvisited hw
    cases w with
    | finite r => exact finite_lt.2 (lt_of_lt_of_le (finite_lt.1 hless) (finite_le.1 hle))
    | positiveInfinity => rfl
    | _ => cases hle

/-- A turn keeps the incumbent leading. -/
theorem Incumbent.Leads.after (h : turn.state.incumbent.Leads tolerance turns)
    (hrational : turn.Rational) :
    (turn.after tolerance).incumbent.Leads tolerance (turns ++ [turn]) := by
  rw [Turn.after_incumbent]
  cases hverdict : turn.verdict tolerance with
  | integral improved =>
    obtain ⟨x, z, houtcome, -, -, rfl⟩ := exists_optimal_of_judge_integral hverdict
    obtain ⟨q, rfl⟩ := hrational x z houtcome
    have hcost : turn.integralCost? tolerance = some (finite q) := by
      rw [Turn.integralCost?_of_integral hverdict, houtcome]
      rfl
    by_cases hless : finite q < turn.state.incumbent.z
    · rw [decide_eq_true hless, houtcome]
      exact h.replaced houtcome hcost hless
    · rw [decide_eq_false hless]
      refine h.concat hrational fun w hw ↦ ?_
      obtain rfl : finite q = w := Option.some.inj (hcost.symm.trans hw)
      exact hless
  | _ =>
    refine h.concat hrational fun w hw ↦ ?_
    obtain ⟨-, improved, -, hintegral⟩ := turn.integralCost?_eq_some hw
    rw [hverdict] at hintegral
    cases hintegral

/-- The event of a turn relates to the earlier events as it should. -/
theorem Incumbent.Leads.lawful (h : turn.state.incumbent.Leads tolerance turns)
    (hrational : turn.Rational) :
    (turn.event tolerance).Lawful (turns.map (Turn.event tolerance)) where
  incumbent := h.leastIntegral
  fathomed := by
    refine judge_eq_fathomed_iff.trans ⟨?_, ?_⟩
    · rintro ⟨x, z, houtcome, hless⟩
      obtain ⟨q, rfl⟩ := hrational x z houtcome
      obtain ⟨w, hw, hlt⟩ := (h.lt_iff q).1 hless
      exact ⟨finite q, w, by rw [Turn.event_z, houtcome]; rfl, hw, hlt⟩
    · rintro ⟨z, w, hz, hw, hlt⟩
      obtain ⟨x, houtcome⟩ := turn.exists_optimal_of_cost? hz
      obtain ⟨q, rfl⟩ := hrational x z houtcome
      exact ⟨x, finite q, houtcome, (h.lt_iff q).2 ⟨w, hw, hlt⟩⟩
  integral := by
    intro improved hverdict
    obtain ⟨x, z, houtcome, -, -, rfl⟩ := exists_optimal_of_judge_integral hverdict
    obtain ⟨q, rfl⟩ := hrational x z houtcome
    refine ⟨finite q, by rw [Turn.event_z, houtcome]; rfl, ?_⟩
    rw [decide_eq_true_iff]
    exact h.gt_iff q
  branched := by
    intro k value hverdict
    obtain ⟨x, z, houtcome, hbest, -⟩ := exists_optimal_of_judge_branched hverdict
    obtain ⟨q, rfl⟩ := hrational x z houtcome
    refine ⟨finite q, by rw [Turn.event_z, houtcome]; rfl, fun w hw ↦ ?_⟩
    exact h.le_of_not_lt hbest hw

end Turns

/-! ## Runs -/

section Runs

variable {p : Program ExtendedRational m n} {τ : ℚ} {tolerance : ExtendedRational}
  {solves : Solves ExtendedRational m n} {last : State ExtendedRational m n}
  {turns : List (Turn ExtendedRational m n)} {turn : Turn ExtendedRational m n}

theorem State.Takes.leads (h : (State.start p).Takes solves tolerance turns last)
    (hrational : ∀ turn ∈ turns, turn.Rational) : last.incumbent.Leads tolerance turns := by
  induction h with
  | start => exact .nothing fun _ hturn ↦ by cases hturn
  | turn earlier turn _ _ _ ih =>
    have hearlier := ih fun visited hvisited ↦ hrational visited (List.mem_append_left _ hvisited)
    exact hearlier.after (hrational turn (List.mem_append_right _ List.mem_cons_self))

theorem State.Takes.lawful (h : (State.start p).Takes solves tolerance turns last)
    (hrational : ∀ turn ∈ turns, turn.Rational) {i : ℕ} {event : NodeEvent ExtendedRational n}
    (hevent : (turns.map (Turn.event tolerance))[i]? = some event) :
    event.Lawful ((turns.map (Turn.event tolerance)).take i) := by
  obtain ⟨turn, hturn, rfl, -, earlier, hearlier, -, hmem, hevents⟩ := h.exists_turn_of_event hevent
  have hleads := hearlier.leads fun visited hvisited ↦ hrational visited (hmem visited hvisited)
  rw [← hevents]
  exact hleads.lawful (hrational turn hturn)

/-- An optimal end shows the relaxed point of the first integral turn of least cost. -/
theorem State.Takes.exists_first (h : (State.start p).Takes solves tolerance turns last)
    (hrational : ∀ turn ∈ turns, turn.Rational) {finish : Finish ExtendedRational n}
    (hcloses : State.Closes turns last finish) (hoptimal : finish.outcome.status = .optimal) :
    ∃ (turn : Turn ExtendedRational m n) (x : Vector ExtendedRational n) (q : ℚ),
      turn.outcome = .optimal x (finite q) ∧ finish.outcome = .optimal x (finite q) ∧
        FirstLeast tolerance turns turn (finite q) := by
  cases hcloses with
  | unbounded => cases hoptimal
  | finished hwaiting =>
    have hleads := h.leads hrational
    unfold State.finish at hoptimal ⊢
    generalize last.incumbent = incumbent at hleads hoptimal ⊢
    cases hleads with
    | nothing => cases hoptimal
    | turn turn x q houtcome hfirst => exact ⟨turn, x, q, houtcome, rfl, hfirst⟩

/-- A relaxation that is solved by the simplex method has a rational point, and its cost is that of
the root. -/
theorem State.Takes.exists_point (hp : p.Admissible) (hτ : 0 ≤ τ)
    (h : (State.start p).Takes (bySimplex (finite τ)) tolerance turns last) (hturn : turn ∈ turns)
    {x : Vector ExtendedRational n} {z : ExtendedRational}
    (houtcome : turn.outcome = .optimal x z) :
    ∃ point : Fin n → ℚ, (∀ j, x.get j = finite (point j)) ∧ z = finite (p.costs ⬝ᵥ point) ∧
      turn.node.program.integer = p.integer := by
  obtain ⟨hreaches, htaken⟩ := h.reaches_of_mem hturn
  have hdescends := descends_of_visits hp hτ hreaches turn.node (State.mem_waiting htaken.waiting)
  obtain ⟨allowance, hrun⟩ := htaken.solved
  rw [houtcome] at hrun
  obtain ⟨head, -, -, -, hx, hz⟩ := Simplex.exists_optimal_head hdescends.admissible hτ hrun
  rw [hdescends.costs_eq] at hz
  exact ⟨head.tableau.solution, hx, hz, hdescends.integer⟩

theorem State.Takes.rational (hp : p.Admissible) (hτ : 0 ≤ τ)
    (h : (State.start p).Takes (bySimplex (finite τ)) tolerance turns last) :
    ∀ turn ∈ turns, turn.Rational := by
  intro turn hturn x z houtcome
  obtain ⟨point, -, hz, -⟩ := h.exists_point hp hτ hturn houtcome
  exact ⟨_, hz⟩

/-- An integral turn has its values within the tolerance above integers. -/
theorem Turn.fract_le (htolerance : 0 ≤ tolerance) {z : ExtendedRational}
    (hcost : turn.integralCost? tolerance = some z) {x : Vector ExtendedRational n}
    (houtcome : turn.outcome = .optimal x z) {k : Fin n}
    (hk : turn.node.program.integer.get k = true) {v : ℚ} (hv : x.get k = finite v) :
    finite (Int.fract v) ≤ tolerance := by
  obtain ⟨-, improved, -, hverdict⟩ := turn.integralCost?_eq_some hcost
  obtain ⟨y, w, hoptimal, -, hindex, -⟩ := exists_optimal_of_judge_integral hverdict
  rw [houtcome] at hoptimal
  cases hoptimal
  exact fract_le_of_branchingIndex_eq_none htolerance hindex hk hv

end Runs

end Search

namespace Model

open Search

variable {model : Model ExtendedRational} {p : Program ExtendedRational model.m model.n} {τ : ℚ}
  {integrality : ExtendedRational}

/-- At every event of a search the incumbent has the least cost of the integral events so far, and
the verdict follows from comparing with it.  An optimal answer is the relaxed point of the first
integral turn of least cost, with its cost, and its integral values are integers within the
tolerance. -/
theorem incumbent_of_turns (hvalid : model.validate = .ok p) (hτ : 0 ≤ τ)
    (hintegrality : 0 ≤ integrality) (allowance : Allowance) :
    ∃ turns last, (State.start p).Takes (simplexRuns (finite τ) allowance.iterations).Solves
        integrality turns last ∧
      (model.solve ⟨finite τ, integrality⟩ allowance).records.filterMap Record.nodeEvent? =
        turns.map (Turn.event integrality) ∧
      (∀ (i : ℕ) event, (turns.map (Turn.event integrality))[i]? = some event →
        event.Lawful ((turns.map (Turn.event integrality)).take i)) ∧
      ∀ summary, (model.solve ⟨finite τ, integrality⟩ allowance).result = some (.ok summary) →
        summary.status = .optimal →
        ∃ (turn : Turn ExtendedRational model.m model.n) (x : Vector ExtendedRational model.n)
          (point : Fin model.n → ℚ),
          (Simplex.run turn.node.program (finite τ) allowance.iterations).result =
            some (.ok (.optimal x (finite (p.costs ⬝ᵥ point)))) ∧
          FirstLeast integrality turns turn (finite (p.costs ⬝ᵥ point)) ∧
          (model.solve ⟨finite τ, integrality⟩ allowance).after =
            model.answered (.optimal x (finite (p.costs ⬝ᵥ point))) ∧
          (∀ j, x.get j = finite (point j)) ∧
          ∀ j, p.integer.get j = true →
            0 ≤ point j - ⌊point j⌋ ∧ finite (point j - ⌊point j⌋) ≤ integrality := by
  have hp := (valid_of_validate hvalid).toAdmissible
  obtain ⟨turns, last, htakes, hevents, hcloses⟩ :=
    State.exists_turns (simplexRuns (finite τ) allowance.iterations) integrality allowance.nodes
      (State.start p)
  have hsimplex := htakes.mono fun _ _ _ ↦ bySimplex_of_runs
  have hrational := hsimplex.rational hp hτ
  refine ⟨turns, last, htakes, ?_, fun i event ↦ htakes.lawful hrational, ?_⟩
  · rw [records_solve hvalid]
    exact hevents
  · intro summary hsummary hoptimal
    obtain ⟨finish, hsearch, rfl, hafter⟩ := exists_finish_of_solve hvalid hsummary
    obtain ⟨turn, x, q, houtcome, hfinish, hfirst⟩ :=
      htakes.exists_first hrational (hcloses finish hsearch) hoptimal
    obtain ⟨point, hx, hz, hinteger⟩ := hsimplex.exists_point hp hτ hfirst.mem houtcome
    have hsolved := (htakes.reaches_of_mem hfirst.mem).2.solved
    rw [houtcome] at hsolved
    rw [hfinish] at hafter
    rw [hz] at hsolved hfirst hafter houtcome
    refine ⟨turn, x, point, hsolved, hfirst, hafter, hx, fun j hj ↦ ?_⟩
    rw [Int.self_sub_floor]
    rw [← hinteger] at hj
    exact ⟨Int.fract_nonneg _, turn.fract_le hintegrality hfirst.1 houtcome hj (hx j)⟩

theorem packing_incumbent :
    packing.validate = .ok packingProgram ∧
      (packing.solve ⟨finite 0, finite 0⟩ ⟨20, 20⟩).result =
        some (.ok ⟨.optimal, ⟨5, 1, 0, 2, 1, 2, 2⟩⟩) ∧
      ∃ (turns : List (Turn ExtendedRational packing.m packing.n)) (turn : _),
        (packing.solve ⟨finite 0, finite 0⟩ ⟨20, 20⟩).records.filterMap Record.nodeEvent? =
          turns.map (Turn.event (finite 0)) ∧
        FirstLeast (finite 0) turns turn (finite (-1)) := by
  have hvalid : packing.validate = .ok packingProgram := rfl
  have hsolved : (packing.solve ⟨finite 0, finite 0⟩ ⟨20, 20⟩).result =
      some (.ok ⟨.optimal, ⟨5, 1, 0, 2, 1, 2, 2⟩⟩) := by
    with_unfolding_all decide
  have hz : (packing.solve ⟨finite 0, finite 0⟩ ⟨20, 20⟩).after.z = some (finite (-1)) := by
    with_unfolding_all decide
  obtain ⟨turns, last, -, hevents, -, hoptimal⟩ :=
    incumbent_of_turns hvalid le_rfl (show (0 : ExtendedRational) ≤ finite 0 from rfl) ⟨20, 20⟩
  obtain ⟨turn, x, point, -, hfirst, hafter, -⟩ := hoptimal _ hsolved rfl
  rw [hafter] at hz
  rw [Option.some.inj hz] at hfirst
  exact ⟨hvalid, hsolved, turns, turn, hevents, hfirst⟩

end Model

end MixedInteger
