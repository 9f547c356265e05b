import MixedInteger.Proofs.Program.Cells
import MixedInteger.Proofs.Search.Containment

/-!
# Finite searches

Each waiting node may cost the search as many further nodes as a binary tree with one leaf per cell
of its program has.  Solving a node pays for itself: its children share its cells.  So a search
that solves every relaxation comes to an end within the allowance of the root, as long as the bounds
of no program cross.

A program with crossed bounds escapes this account.  Its relaxed point may lie beyond a bound, and
then one part of it may be the program itself, so that the search never ends.
-/

namespace MixedInteger

open Arithmetic ExtendedRational

namespace Search

variable {m n : ℕ} {p : Program ExtendedRational m n} {integrality : ExtendedRational}
  {state next : State ExtendedRational m n}

/-! ## The account of a search -/

/-- The nodes of a binary tree with one leaf per cell of a program. -/
def treeSize (q : Program ExtendedRational m n) : ℕ :=
  2 * q.cells - 1

/-- How many nodes the search may still take. -/
def State.load (state : State ExtendedRational m n) : ℕ :=
  (state.waiting.map fun node ↦ treeSize node.program).sum

/-- The children of a node have fewer nodes below them, by one, than the node has. -/
theorem load_children (node : Node ExtendedRational m n) (integrality best : ExtendedRational)
    (hvalid : node.program.Valid) (hcells : 0 < node.program.cells)
    (hintegers : node.program.IntegersBounded) {outcome : Outcome ExtendedRational n}
    (hyields : Simplex.Yields node.program (finite 0) (.ok outcome)) :
    ((node.children (judge node.program.integer integrality best outcome)).map fun child ↦
        treeSize child.program).sum + 1 ≤ treeSize node.program := by
  have hnone : ([].map fun child : Node ExtendedRational m n ↦ treeSize child.program).sum + 1 ≤
      treeSize node.program := by
    simp only [List.map_nil, List.sum_nil, treeSize]
    omega
  cases outcome with
  | infeasible => exact hnone
  | unbounded => exact hnone
  | optimal x z =>
    obtain ⟨-, hjudge⟩ | ⟨-, k, hk, hjudge⟩ | ⟨-, -, hjudge⟩ :=
      judge_optimal_cases node.program.integer integrality best x z
    · rw [hjudge]
      exact hnone
    · obtain ⟨point, hpoint, hsplits⟩ :=
        exists_splits_of_branchingIndex hvalid.toAdmissible hyields hk
      obtain ⟨hdown, hup, hsum⟩ := Program.cells_split hintegers hcells (hsplits.within hvalid)
        hsplits.integer hsplits.apart
      rw [hjudge, hpoint k]
      simp only [Node.children, Node.child, List.map_cons, List.map_nil, List.sum_cons,
        List.sum_nil, treeSize]
      omega
    · rw [hjudge]
      exact hnone

section Account

variable (hp : p.Valid) (hintegers : p.IntegersBounded) (huncrossed : Uncrossed p integrality)
include hp hintegers huncrossed

/-- If no bounds cross, every waiting program has a cell, and finite bounds where it needs them. -/
theorem cells_of_waiting (h : VisitsExactly p integrality state) :
    ∀ node ∈ state.waiting, 0 < node.program.cells ∧ node.program.IntegersBounded := by
  intro node hnode
  refine (forall_waiting hp.toAdmissible (fun q ↦ 0 < q.cells ∧ q.IntegersBounded)
    ⟨Program.cells_pos hintegers hp.ordered, hintegers⟩ ?_ h node hnode).2
  rintro q point k side htaken hdescends ⟨hcells, hbounded⟩ hsplits
  have hwithin := hsplits.within (hdescends.admissible.valid (huncrossed q htaken))
  obtain ⟨hdown, hup, -⟩ :=
    Program.cells_split hbounded hcells hwithin hsplits.integer hsplits.apart
  refine ⟨?_, hbounded.tighten k _ side⟩
  cases side with
  | down => exact hdown
  | up => exact hup

/-- Every step pays for the node that it takes. -/
theorem State.Continues.load (hvisits : VisitsExactly p integrality state)
    (h : state.Continues (bySimplex (finite 0)) integrality next) :
    next.load + 1 ≤ state.load ∧ next.statistics.nodes = state.statistics.nodes + 1 := by
  cases h with
  | node node rest outcome hwaiting hyields hbounded =>
    have htaken := TakesUp.of_cons hvisits hwaiting
    have hvalid := (htaken.descends hp.toAdmissible).admissible.valid (huncrossed _ htaken)
    obtain ⟨hcells, hfinite⟩ :=
      cells_of_waiting hp hintegers huncrossed hvisits node (State.mem_waiting hwaiting)
    have hchildren :=
      load_children node integrality state.incumbent.z hvalid hcells hfinite hyields
    refine ⟨?_, Statistics.count_nodes _ _ _⟩
    unfold State.load State.next State.after State.verdict
    rw [hwaiting, List.map_append, List.sum_append, List.map_cons, List.sum_cons]
    omega

/-- While a node waits, there is something left to do. -/
theorem load_pos (h : VisitsExactly p integrality state) {node : Node ExtendedRational m n}
    {rest : List (Node ExtendedRational m n)} (hwaiting : state.waiting = node :: rest) :
    0 < state.load := by
  have hcells :=
    (cells_of_waiting hp hintegers huncrossed h node (State.mem_waiting hwaiting)).1
  unfold State.load treeSize
  rw [hwaiting, List.map_cons, List.sum_cons]
  omega

/-! ## The end of a search -/

/-- A search that solves every relaxation ends, and takes no more nodes than its load. -/
theorem exists_finish
    (hsolves : ∀ q, TakesUp p integrality q → ∃ result, Simplex.Yields q (finite 0) result)
    (h : VisitsExactly p integrality state) :
    ∃ iterations, ∀ many, iterations ≤ many → ∀ allowance, state.load ≤ allowance →
      ∃ finish, (state.run (simplexRuns (finite 0) many) integrality allowance).result =
          some (.ok finish) ∧
        finish.statistics.nodes ≤ state.statistics.nodes + state.load := by
  induction hload : state.load using Nat.strongRecOn generalizing state with
  | ind load ih =>
    cases hwaiting : state.waiting with
    | nil =>
      refine ⟨0, fun many _ allowance _ ↦ ⟨state.finish, ?_, ?_⟩⟩
      · exact State.run_of_finished hwaiting
      · exact Nat.le_add_right _ _
    | cons node rest =>
      have htaken := TakesUp.of_cons h hwaiting
      obtain ⟨result, few, hfew⟩ := hsolves _ htaken
      have hadmissible := (htaken.descends hp.toAdmissible).admissible
      cases result with
      | error deadEnd => exact absurd hfew (Simplex.not_deadEnd hadmissible)
      | ok outcome =>
        have hpositive := load_pos hp hintegers huncrossed h hwaiting
        have hsolved (many : ℕ) (hmany : few ≤ many) :
            (simplexRuns (finite 0) many).Solves (state.statistics.nodes + 1) node.program
              (.ok outcome) :=
          Simplex.State.run_result_of_le hfew hmany
        by_cases hunbounded : outcome = .unbounded
        · subst hunbounded
          refine ⟨few, fun many hmany allowance hallowance ↦ ?_⟩
          obtain ⟨allowance, rfl⟩ := Nat.exists_eq_add_one_of_ne_zero
            (hpositive.trans_le (hload.trans_le hallowance)).ne'
          refine ⟨_, State.run_of_unbounded hwaiting (hsolved many hmany), ?_⟩
          rw [State.next, State.after, Statistics.count_nodes]
          omega
        · -- the iterations that the node needs and those that the rest of the search needs
          have hnext : state.Continues (bySimplex (finite 0)) integrality
              (state.next integrality node rest outcome) :=
            .node node rest outcome hwaiting ⟨few, hfew⟩ hunbounded
          obtain ⟨hless, hnodes⟩ := hnext.load hp hintegers huncrossed h
          obtain ⟨later, hlater⟩ := ih _ (by omega) (h.tail hnext) rfl
          refine ⟨max few later, fun many hmany allowance hallowance ↦ ?_⟩
          obtain ⟨allowance, rfl⟩ := Nat.exists_eq_add_one_of_ne_zero
            (hpositive.trans_le (hload.trans_le hallowance)).ne'
          obtain ⟨finish, hfinish, hle⟩ :=
            hlater many (le_of_max_le_right hmany) allowance (by omega)
          refine ⟨finish, ?_, by omega⟩
          rw [State.run_of_next hwaiting (hsolved many (le_of_max_le_left hmany)) hunbounded]
          exact hfinish

end Account

end Search

namespace Model

open Search

/-- An exact search is finite on a valid model whose variables that must be integral have two finite
bounds each, if every run of the simplex method ends and the bounds of no program cross that the
search takes up, as is the case if they are integers at the root.  Given enough iterations for each
run, it takes at most as many nodes as a binary tree with one leaf per cell has. -/
theorem exists_summary_of_bounded {model : Model ExtendedRational}
    {p : Program ExtendedRational model.m model.n} (hvalid : model.validate = .ok p)
    {integrality : ExtendedRational} (hintegers : p.IntegersBounded)
    (hsolves : ∀ q, TakesUp p integrality q → ∃ result, Simplex.Yields q (finite 0) result)
    (huncrossed : Uncrossed p integrality ∨ p.IntegralBounds) :
    ∃ iterations, ∀ allowance : Allowance, iterations ≤ allowance.iterations →
      2 * p.cells - 1 ≤ allowance.nodes →
      ∃ summary, (model.solve ⟨finite 0, integrality⟩ allowance).result = some (.ok summary) ∧
        summary.statistics.nodes ≤ 2 * p.cells - 1 := by
  have hp := valid_of_validate hvalid
  have hordered : Uncrossed p integrality := by
    rcases huncrossed with h | h
    · exact h
    · exact uncrossed_of_integralBounds hp h
  obtain ⟨iterations, hfinish⟩ := exists_finish hp hintegers hordered hsolves .refl
  refine ⟨iterations, fun allowance hiterations hnodes ↦ ?_⟩
  have hload : (Search.State.start p).load = 2 * p.cells - 1 := by
    simp [Search.State.load, Search.State.start, treeSize]
  rw [hload] at hfinish
  obtain ⟨finish, hrun, hle⟩ := hfinish allowance.iterations hiterations allowance.nodes hnodes
  refine ⟨_, result_solve_of_search hvalid hrun, ?_⟩
  simpa [Search.State.start, Statistics.start] using hle

/-- An odd number, which is twice no integer. -/
def halving : Model ExtendedRational :=
  ((Model.ofRows [[finite 2]] [finite 1] [finite 0]).boundedBy [finite 0]
    [finite 1]).withIntegrality [true]

theorem halving_defect? : halving.defect? = none := by
  decide

def halvingProgram : Program ExtendedRational 1 1 :=
  halving.program (shaped_of_defect?_eq_none halving_defect?)

theorem halvingProgram_admissible : halvingProgram.Admissible :=
  (valid_of_validate (validate_of_defect?_eq_none halving_defect?)).toAdmissible

theorem halvingProgram_runs :
    (Simplex.run halvingProgram (finite 0) 9).result =
        some (.ok (.optimal #v[finite (1 / 2)] (finite 0))) ∧
      ∀ side, (Simplex.run (halvingProgram.tighten 0 (finite (1 / 2)) side) (finite 0)
        9).result = some (.ok .infeasible) := by
  refine ⟨by with_unfolding_all decide, fun side ↦ ?_⟩
  cases side <;> with_unfolding_all decide

/-- The program and its two parts. -/
inductive HalvingPart : Program ExtendedRational 1 1 → Prop where
  | whole : HalvingPart halvingProgram
  | part (side : Side) : HalvingPart (halvingProgram.tighten 0 (finite (1 / 2)) side)

theorem halvingPart_of_takesUp {q : Program ExtendedRational 1 1}
    (hq : TakesUp halvingProgram (finite 0) q) : HalvingPart q := by
  obtain ⟨hroot, hparts⟩ := halvingProgram_runs
  refine hq.of_waiting HalvingPart fun state hvisits node hnode ↦ ?_
  refine (forall_waiting halvingProgram_admissible HalvingPart .whole ?_ hvisits node
    hnode).2
  rintro q point k side - - hpart hsplits
  cases hpart with
  | whole =>
    obtain ⟨x, z, hx, hpoint⟩ := hsplits.exists_optimal ⟨9, hroot⟩
    cases hx
    obtain rfl : k = 0 := Subsingleton.elim _ _
    rw [← hpoint 0]
    exact .part side
  | part part =>
    obtain ⟨x, z, hx, -⟩ := hsplits.exists_optimal ⟨9, hparts part⟩
    cases hx

theorem halving_finite :
    halving.validate = .ok halvingProgram ∧ halvingProgram.IntegersBounded ∧
      (∀ q, TakesUp halvingProgram (finite 0) q →
        ∃ result, Simplex.Yields q (finite 0) result) ∧
      ∃ iterations, ∀ allowance : Allowance, iterations ≤ allowance.iterations →
        3 ≤ allowance.nodes →
        ∃ summary, (halving.solve ⟨finite 0, finite 0⟩ allowance).result = some (.ok summary) ∧
          summary.statistics.nodes ≤ 3 := by
  have hvalid : halving.validate = .ok halvingProgram := rfl
  have hlower : halvingProgram.lower.get 0 = finite 0 := by decide
  have hupper : halvingProgram.upper.get 0 = finite 1 := by decide
  have hintegers : halvingProgram.IntegersBounded := by
    intro j _
    fin_cases j
    exact ⟨0, 1, hlower, hupper⟩
  have hbounds : halvingProgram.IntegralBounds := by
    constructor
    · intro j q _ hq
      fin_cases j
      exact ⟨0, finite.inj (hq.symm.trans hlower)⟩
    · intro j q _ hq
      fin_cases j
      exact ⟨1, finite.inj (hq.symm.trans hupper)⟩
  have hsolves (q : Program ExtendedRational 1 1) (hq : TakesUp halvingProgram (finite 0) q) :
      ∃ result, Simplex.Yields q (finite 0) result := by
    cases halvingPart_of_takesUp hq with
    | whole => exact ⟨_, 9, halvingProgram_runs.1⟩
    | part side => exact ⟨_, 9, halvingProgram_runs.2 side⟩
  have hcells : 2 * halvingProgram.cells - 1 = 3 := by decide
  obtain ⟨iterations, hfinite⟩ :=
    exists_summary_of_bounded hvalid hintegers hsolves (.inr hbounds)
  refine ⟨hvalid, hintegers, hsolves, iterations, fun allowance hiterations hnodes ↦ ?_⟩
  obtain ⟨summary, hsummary, hle⟩ := hfinite allowance hiterations (hcells.trans_le hnodes)
  exact ⟨summary, hsummary, hle.trans_eq hcells⟩

/-! ## A search without end -/

/-- A variable that must be integral, between two bounds without an integer between them, and others
that are dear to leave at zero. -/
def endless : Model ExtendedRational :=
  ((Model.ofRows [] [] (finite 0 :: List.replicate 12 (finite (-1)))).boundedBy
    (finite (1 / 4) :: List.replicate 12 (finite 0))
    (finite (3 / 4) :: List.replicate 12 (finite 1))).withIntegrality
    (true :: List.replicate 12 false)

theorem endless_defect? : endless.defect? = none := by
  with_unfolding_all decide

def endlessProgram : Program ExtendedRational 0 13 :=
  endless.program (shaped_of_defect?_eq_none endless_defect?)

/-- The point at which the variable has the given value. -/
def endlessPoint (value : ℚ) : Vector ExtendedRational 13 :=
  Vector.ofFn fun j ↦ if j = 0 then finite value else finite 1

/-- The part of the program above its relaxed value, with crossed bounds. -/
def endlessAbove : Program ExtendedRational 0 13 :=
  endlessProgram.tighten 0 (finite (1 / 4)) .up

/-- The programs that the search takes up, with the relaxed value of the variable. -/
inductive EndlessPart : Program ExtendedRational 0 13 → ℚ → Prop where
  | whole : EndlessPart endlessProgram (1 / 4)
  | below : EndlessPart (endlessProgram.tighten 0 (finite (1 / 4)) .down) 0
  | above : EndlessPart endlessAbove (3 / 4)
  | within : EndlessPart (endlessAbove.tighten 0 (finite (3 / 4)) .down) 0

theorem EndlessPart.yields {q : Program ExtendedRational 0 13} {value : ℚ}
    (h : EndlessPart q value) :
    Simplex.Yields q (finite 0) (.ok (.optimal (endlessPoint value) (finite (-12)))) := by
  refine ⟨20, ?_⟩
  cases h <;> with_unfolding_all decide

/-- One part of the part above is the part above itself. -/
theorem endlessAbove_up : endlessAbove.tighten 0 (finite (3 / 4)) .up = endlessAbove := by
  apply Program.tighten_up_eq_self
  with_unfolding_all decide

theorem endlessProgram_admissible : endlessProgram.Admissible :=
  (valid_of_validate (validate_of_defect?_eq_none endless_defect?)).toAdmissible

theorem endlessPart_of_waiting {state : Search.State ExtendedRational 0 13}
    (h : VisitsExactly endlessProgram (finite 0) state) :
    ∀ node ∈ state.waiting, ∃ value, EndlessPart node.program value := by
  intro node hnode
  refine (forall_waiting endlessProgram_admissible (fun q ↦ ∃ value, EndlessPart q value)
    ⟨_, .whole⟩ ?_ h node hnode).2
  rintro q point k side - hdescends ⟨value, hpart⟩ hsplits
  have hinteger := hsplits.integer
  rw [hdescends.integer] at hinteger
  have hk : ∀ k : Fin 13, endlessProgram.integer.get k = true → k = 0 := by decide
  obtain rfl := hk k hinteger
  obtain ⟨x, z, hx, hpoint⟩ := hsplits.exists_optimal hpart.yields
  cases hx
  have hvalue : finite value = finite (point 0) := hpoint 0
  have hapart := hsplits.apart
  rw [← finite.inj hvalue] at hapart ⊢
  cases hpart with
  | whole =>
    cases side with
    | down => exact ⟨_, .below⟩
    | up => exact ⟨_, .above⟩
  | above =>
    cases side with
    | down => exact ⟨_, .within⟩
    | up =>
      rw [endlessAbove_up]
      exact ⟨_, .above⟩
  | below => exact absurd rfl (hapart 0)
  | within => exact absurd rfl (hapart 0)

/-- A program with a positive relaxed value is split, and its part above is the part above the
whole. -/
theorem EndlessPart.branches {q : Program ExtendedRational 0 13} {value : ℚ}
    (h : EndlessPart q value) (hvalue : 0 < value) :
    branchingIndex (endlessPoint value) q.integer (finite 0) = some 0 ∧
      EndlessPart (q.tighten 0 (finite value) .up) (3 / 4) := by
  cases h with
  | whole => exact ⟨by with_unfolding_all decide, .above⟩
  | above =>
    rw [endlessAbove_up]
    exact ⟨by with_unfolding_all decide, .above⟩
  | below => exact absurd hvalue (lt_irrefl 0)
  | within => exact absurd hvalue (lt_irrefl 0)

/-- A program waits that is going to be split, as the incumbent does not cost less. -/
structure Endless (state : Search.State ExtendedRational 0 13) : Prop where
  waiting : ∃ node ∈ state.waiting, ∃ value, 0 < value ∧ EndlessPart node.program value
  incumbent : ¬ state.incumbent.z < finite (-12)

theorem EndlessPart.outcome_eq {q : Program ExtendedRational 0 13} {value : ℚ}
    (h : EndlessPart q value) {outcome : Outcome ExtendedRational 13}
    (hyields : Simplex.Yields q (finite 0) (.ok outcome)) :
    outcome = .optimal (endlessPoint value) (finite (-12)) :=
  Except.ok.inj (hyields.unique h.yields)

/-- A split program leaves the part above behind, where it waits to be split again. -/
theorem Endless.next {state next : Search.State ExtendedRational 0 13}
    (hvisits : VisitsExactly endlessProgram (finite 0) state)
    (h : state.Continues (bySimplex (finite 0)) (finite 0) next) (hstate : Endless state) :
    Endless next := by
  cases h with
  | node node rest outcome hwaiting hyields hbounded =>
    constructor
    · obtain ⟨other, hother, value, hvalue, hpart⟩ := hstate.waiting
      rw [hwaiting] at hother
      rcases List.mem_cons.1 hother with rfl | hrest
      · obtain rfl := hpart.outcome_eq hyields
        obtain ⟨hindex, habove⟩ := hpart.branches hvalue
        refine ⟨other.child 0 (finite value) .up, List.mem_append_right _ ?_, _, by norm_num,
          habove⟩
        rw [State.verdict, judge_eq_branched hstate.incumbent hindex]
        exact List.mem_cons_of_mem _ List.mem_cons_self
      · exact ⟨other, List.mem_append_left _ hrest, value, hvalue, hpart⟩
    · obtain hkept | ⟨x, z, hx, -, hnew⟩ :=
        State.next_incumbent_cases (finite 0) state node rest outcome
      · rw [hkept]
        exact hstate.incumbent
      · obtain ⟨value, hpart⟩ :=
          endlessPart_of_waiting hvisits node (State.mem_waiting hwaiting)
        have houtcome := hpart.outcome_eq hyields
        rw [hx] at houtcome
        cases houtcome
        rw [hnew]
        exact not_lt_of_le (finite_le.2 le_rfl)

theorem endless_of_visits {state : Search.State ExtendedRational 0 13}
    (h : VisitsExactly endlessProgram (finite 0) state) : Endless state := by
  induction h with
  | refl => exact ⟨⟨_, List.mem_singleton_self _, _, by norm_num, .whole⟩, not_lt_of_le rfl⟩
  | tail hvisits hnext ih => exact ih.next hvisits hnext

theorem endlessProgram_integersBounded : endlessProgram.IntegersBounded := by
  intro j hj
  have hj' : ∀ j : Fin 13, endlessProgram.integer.get j = true → j = 0 := by decide
  obtain rfl := hj' j hj
  exact ⟨1 / 4, 3 / 4, by with_unfolding_all decide, by with_unfolding_all decide⟩

/-- A search whose relaxations all have a result may never end. -/
theorem not_exists_summary :
    ¬ ∀ (model : Model ExtendedRational) (p : Program ExtendedRational model.m model.n)
        (integrality : ℚ),
      model.validate = .ok p → 0 ≤ integrality → p.IntegersBounded →
      (∀ q, TakesUp p (finite integrality) q →
        ∃ result, Simplex.Yields q (finite 0) result) →
      ∃ allowance summary,
        (model.solve ⟨finite 0, finite integrality⟩ allowance).result = some (.ok summary) := by
  intro h
  have hvalid : endless.validate = .ok endlessProgram :=
    validate_of_defect?_eq_none endless_defect?
  have hsolves (q : Program ExtendedRational 0 13) (hq : TakesUp endlessProgram (finite 0) q) :
      ∃ result, Simplex.Yields q (finite 0) result := by
    obtain ⟨value, hpart⟩ := hq.of_waiting (fun q ↦ ∃ value, EndlessPart q value)
      fun _ hvisits ↦ endlessPart_of_waiting hvisits
    exact ⟨_, hpart.yields⟩
  obtain ⟨allowance, summary, hresult⟩ :=
    h endless endlessProgram 0 hvalid le_rfl endlessProgram_integersBounded hsolves
  obtain ⟨last, finish, hvisits, hends, -⟩ := exists_end_of_solve hvalid hresult
  cases hends with
  | finished hwaiting =>
    obtain ⟨node, hnode, -⟩ := (endless_of_visits hvisits).waiting
    rw [hwaiting] at hnode
    cases hnode
  | unbounded node rest hwaiting hyields =>
    obtain ⟨value, hpart⟩ :=
      endlessPart_of_waiting hvisits node (Search.State.mem_waiting hwaiting)
    cases hpart.outcome_eq hyields

end Model

end MixedInteger
