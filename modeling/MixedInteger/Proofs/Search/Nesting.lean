import MixedInteger.Proofs.Program.Cells
import MixedInteger.Proofs.Program.Statement
import MixedInteger.Proofs.Search.Containment
import MixedInteger.Proofs.Search.History

/-!
# Nested boxes

Nothing checks a node again once the search has begun.  If the root is valid and its variables that
must be integral have integers for bounds, or none, there is no need to: an exact search splits a
valid program strictly between two integers that are within its bounds, so both parts are valid,
they lie inside the program they come from, they have no point in common, and the bound that was
replaced moves by one at least.  A node is therefore no deeper than the bounds of the root are wide.
-/

open scoped BigOperators

namespace MixedInteger

open Arithmetic ExtendedRational

namespace Program

variable {m n : ℕ} {p : Program ExtendedRational m n} {k : Fin n} {v : ℚ}

/-! ## Widths -/

/-- How far the finite bounds of a variable are apart, if it must be integral. -/
def widthOf (p : Program ExtendedRational m n) (j : Fin n) : ℚ :=
  if p.integer.get j = true then (p.upper.get j).rational - (p.lower.get j).rational else 0

/-- The widths of all variables that must be integral together. -/
def width (p : Program ExtendedRational m n) : ℚ :=
  ∑ j, p.widthOf j

theorem width_nonneg (h : p.IntegersBounded) (hordered : p.Ordered) : 0 ≤ p.width := by
  unfold width
  refine Finset.sum_nonneg fun j _ ↦ ?_
  unfold widthOf
  split_ifs with hj
  · obtain ⟨l, u, hl, hu⟩ := h j hj
    have hle := hordered j
    rw [hl, hu] at hle ⊢
    exact sub_nonneg.2 (finite_le.1 hle)
  · exact le_rfl

/-- The upper bound falls by one at least when it is replaced by the floor of a value within bounds
that is no integer. -/
theorem IntegralBounds.floor_add_one_le (h : p.IntegralBounds) (hk : p.integer.get k = true)
    (hv : finite v ≤ p.upper.get k) (hapart : ∀ i : ℤ, v ≠ i) :
    finite ⌊v⌋ + 1 ≤ p.upper.get k := by
  have hceil := ceil_le_upper hv fun q ↦ h.upper k q hk
  rwa [ceil_eq_floor_add_one hapart, Int.cast_add, Int.cast_one] at hceil

/-- The lower bound rises by one at least when it is replaced by the ceiling. -/
theorem IntegralBounds.add_one_le_ceil (h : p.IntegralBounds) (hk : p.integer.get k = true)
    (hv : p.lower.get k ≤ finite v) (hapart : ∀ i : ℤ, v ≠ i) :
    p.lower.get k + 1 ≤ finite ⌈v⌉ := by
  have hfloor := lower_le_floor hv fun q ↦ h.lower k q hk
  rw [ceil_eq_floor_add_one hapart, Int.cast_add, Int.cast_one, one_eq_finite]
  cases hlower : p.lower.get k with
  | finite l =>
    rw [hlower, finite_le] at hfloor
    exact finite_le.2 (add_le_add_left hfloor 1)
  | negativeInfinity => exact negativeInfinity_le_finite _
  | _ =>
    rw [hlower] at hfloor
    cases hfloor

/-- No variable is wider in a part, and the one that is split is narrower by one at least. -/
theorem widthOf_tighten_le (hbounded : p.IntegersBounded) (h : p.IntegralBounds)
    {x : Fin n → ℚ} (hx : p.Within x) (hk : p.integer.get k = true)
    (hapart : ∀ i : ℤ, x k ≠ i) (side : Side) (j : Fin n) :
    (p.tighten k (finite (x k)) side).widthOf j + (if j = k then 1 else 0) ≤ p.widthOf j := by
  obtain ⟨l, u, hl, hu⟩ := hbounded k hk
  have hfloor := h.floor_add_one_le hk (hx.upper k) hapart
  have hceil := h.add_one_le_ceil hk (hx.lower k) hapart
  rw [hu, one_eq_finite, finite_add, finite_le] at hfloor
  rw [hl, one_eq_finite, finite_add, finite_le] at hceil
  unfold widthOf
  rw [tighten_integer, tighten_upper_get, tighten_lower_get, floor_finite, ceil_finite]
  by_cases hj : j = k
  · subst hj
    rw [if_pos hk, if_pos hk, hl, hu, if_pos rfl]
    cases side with
    | down =>
      simp only [true_and, if_true, reduceCtorEq, false_and, if_false, rational_finite]
      linarith
    | up =>
      simp only [true_and, if_true, reduceCtorEq, false_and, if_false, rational_finite]
      linarith
  · simp only [hj, and_false, if_false, add_zero]
    exact le_rfl

/-- Both parts are narrower by one at least. -/
theorem width_tighten_add_one_le (hbounded : p.IntegersBounded) (h : p.IntegralBounds)
    {x : Fin n → ℚ} (hx : p.Within x) (hk : p.integer.get k = true)
    (hapart : ∀ i : ℤ, x k ≠ i) (side : Side) :
    (p.tighten k (finite (x k)) side).width + 1 ≤ p.width :=
  calc (p.tighten k (finite (x k)) side).width + 1
      = ∑ j, ((p.tighten k (finite (x k)) side).widthOf j + if j = k then 1 else 0) := by
        rw [Finset.sum_add_distrib, Finset.sum_ite_eq', if_pos (Finset.mem_univ k), width]
    _ ≤ p.width := by
        apply Finset.sum_le_sum
        intro j _
        exact widthOf_tighten_le hbounded h hx hk hapart side j

end Program

namespace Search

open Program

variable {m n : ℕ} {p : Program ExtendedRational m n} {integrality : ExtendedRational}
  {state : State ExtendedRational m n}

/-! ## Nodes -/

/-- What a node keeps of the root: the bounds of free variables, integral bounds of all others that
do not cross, and at every depth the width that is left. -/
structure Nested (root : Program ExtendedRational m n) (node : Node ExtendedRational m n) :
    Prop where
  ordered : node.program.Ordered
  integral : node.program.IntegralBounds
  free : ∀ j, root.integer.get j = false →
    node.program.lower.get j = root.lower.get j ∧ node.program.upper.get j = root.upper.get j
  bounded : root.IntegersBounded → node.program.IntegersBounded
  narrow : root.IntegersBounded → node.depth + node.program.width ≤ root.width

theorem nested_root (hp : p.Valid) (hbounds : p.IntegralBounds) : Nested p ⟨p, 0⟩ where
  ordered := hp.ordered
  integral := hbounds
  free _ _ := ⟨rfl, rfl⟩
  bounded h := h
  narrow _ := by rw [Nat.cast_zero, zero_add]

theorem Nested.child {node : Node ExtendedRational m n} (h : Nested p node)
    (hdescends : node.program.Descends p) {point : Fin n → ℚ} {k : Fin n}
    (hsplits : Splits node.program point k) (side : Side) :
    Nested p (node.child k (finite (point k)) side) where
  ordered := h.integral.ordered_tighten h.ordered
    (hsplits.within (hdescends.admissible.valid h.ordered)) hsplits.integer side
  integral := h.integral.tighten k _ side
  free j hj := by
    have hjk : j ≠ k := by
      rintro rfl
      rw [← hdescends.integer, hsplits.integer] at hj
      cases hj
    obtain ⟨hlower, hupper⟩ := h.free j hj
    rw [Node.child, tighten_lower_get, tighten_upper_get]
    simp only [hjk, and_false, if_false]
    exact ⟨hlower, hupper⟩
  bounded hroot := (h.bounded hroot).tighten k _ side
  narrow hroot := by
    have hwidth := width_tighten_add_one_le (h.bounded hroot) h.integral
      (hsplits.within (hdescends.admissible.valid h.ordered)) hsplits.integer hsplits.apart side
    have hnarrow := h.narrow hroot
    rw [Node.child, Nat.cast_add, Nat.cast_one]
    linarith

theorem nested_of_visits (hp : p.Valid) (hbounds : p.IntegralBounds)
    (h : VisitsExactly p integrality state) :
    ∀ node ∈ state.waiting, node.program.Descends p ∧ Nested p node := by
  refine forall_nodes hp.toAdmissible (Nested p) (nested_root hp hbounds) ?_ h
  intro node point k side _ hdescends hnested hsplits
  exact hnested.child hdescends hsplits side

/-- A node states what the root does, in a box of its own, and could be solved as a model. -/
structure Sound (model : Model ExtendedRational)
    (root : Program ExtendedRational model.m model.n)
    (node : Node ExtendedRational model.m model.n) : Prop where
  valid : node.program.model.validate = .ok node.program
  stated : node.program.model =
    { model.cleared with
      lower := node.program.lower.toList
      upper := node.program.upper.toList }
  free : ∀ j, root.integer.get j = false →
    node.program.lower.get j = root.lower.get j ∧ node.program.upper.get j = root.upper.get j
  depth : root.IntegersBounded → node.depth ≤ root.width

/-- How the two children of a node differ from it, and from each other. -/
structure Halved (node : Node ExtendedRational m n) (k : Fin n) (value : ExtendedRational) :
    Prop where
  integer : node.program.integer.get k = true
  stated : ∀ (answer : Outcome ExtendedRational n) (side : Side),
    (node.program.model.answered answer).tightened? k value side =
      some (node.child k value side).program.model
  inside : ∀ side, (node.child k value side).program.Inside node.program
  disjoint : ∀ y, ¬ ((node.child k value .down).program.Within y ∧
    (node.child k value .up).program.Within y)
  down : (node.child k value .down).program.upper.get k + 1 ≤ node.program.upper.get k
  up : node.program.lower.get k + 1 ≤ (node.child k value .up).program.lower.get k

theorem Nested.halved {node : Node ExtendedRational m n} (h : Nested p node)
    (hdescends : node.program.Descends p) {point : Fin n → ℚ} {k : Fin n}
    (hsplits : Splits node.program point k) : Halved node k (finite (point k)) := by
  have hvalid := hdescends.admissible.valid h.ordered
  have hwithin := hsplits.within hvalid
  have hupper : (node.child k (finite (point k)) .down).program.upper.get k =
      finite ⌊point k⌋ := by
    rw [Node.child, tighten_upper_get, if_pos ⟨rfl, rfl⟩, floor_finite]
  have hlower : (node.child k (finite (point k)) .up).program.lower.get k =
      finite ⌈point k⌉ := by
    rw [Node.child, tighten_lower_get, if_pos ⟨rfl, rfl⟩, ceil_finite]
  constructor
  · exact hsplits.integer
  · intro answer side
    rw [tightened?_answered]
    exact node.program.tightened?_model k _ side
  · exact fun side ↦ hvalid.toAdmissible.inside.tighten hwithin k side
  · rintro y ⟨hdown, hup⟩
    have hbelow := hdown.upper k
    have habove := hup.lower k
    rw [hupper, finite_le] at hbelow
    rw [hlower, finite_le, ceil_eq_floor_add_one hsplits.apart] at habove
    push_cast at habove
    linarith
  · rw [hupper]
    exact h.integral.floor_add_one_le hsplits.integer (hwithin.upper k) hsplits.apart
  · rw [hlower]
    exact h.integral.add_one_le_ceil hsplits.integer (hwithin.lower k) hsplits.apart

end Search

namespace Model

open Search

variable {model : Model ExtendedRational} {p : Program ExtendedRational model.m model.n}
  {integrality : ExtendedRational}

theorem sound_of_nested (hvalid : model.validate = .ok p)
    {node : Node ExtendedRational model.m model.n} (hdescends : node.program.Descends p)
    (h : Nested p node) : Sound model p node where
  valid := (hdescends.admissible.valid h.ordered).validate_model
  stated := by
    rw [← model_of_validate hvalid]
    unfold Program.model
    rw [hdescends.A, hdescends.b, hdescends.c, hdescends.integer]
  free := h.free
  depth hroot := by
    have hwidth := Program.width_nonneg (h.bounded hroot) h.ordered
    have hnarrow := h.narrow hroot
    linarith

/-- Every node of an exact search on a valid model with integral bounds is a valid model that
differs from the root in the bounds of variables that must be integral, and no deeper than these are
wide.  It is the root or a child of a judged node; and the children of a node have a part each of
its box, with no point in common and a bound that moved by one at least. -/
theorem nodes_nested (hvalid : model.validate = .ok p) (hbounds : p.IntegralBounds)
    {history : List (Judged ExtendedRational model.m model.n)}
    {state : Search.State ExtendedRational model.m model.n}
    (h : (State.start p).Judges (bySimplex (finite 0)) integrality history state) :
    (∀ node ∈ state.waiting, Sound model p node ∧
      (node = ⟨p, 0⟩ ∨ ∃ judged ∈ history, ∃ k value side,
        judged.verdict = .branched k value ∧ node = judged.node.child k value side)) ∧
    ∀ judged ∈ history, Sound model p judged.node ∧
      ∀ k value, judged.verdict = .branched k value → Halved judged.node k value := by
  have hp := valid_of_validate hvalid
  constructor
  · intro node hnode
    obtain ⟨hdescends, hnested⟩ := nested_of_visits hp hbounds h.reaches node hnode
    refine ⟨sound_of_nested hvalid hdescends hnested, ?_⟩
    obtain hstart | hchild := h.exists_parent hnode
    · exact .inl (List.mem_singleton.1 hstart)
    · exact .inr hchild
  · intro judged hjudged
    obtain ⟨visited, rest, hreaches, hwaiting, hsolved, hverdict⟩ := h.exists_visited hjudged
    obtain ⟨hdescends, hnested⟩ :=
      nested_of_visits hp hbounds hreaches judged.node (State.mem_waiting hwaiting)
    refine ⟨sound_of_nested hvalid hdescends hnested, fun k value hbranched ↦ ?_⟩
    obtain ⟨x, z, houtcome, -, hindex, rfl⟩ :=
      exists_optimal_of_judge_branched (hverdict.symm.trans hbranched)
    rw [houtcome] at hsolved
    obtain ⟨point, hpoint, hsplits⟩ :=
      exists_splits_of_branchingIndex hdescends.admissible hsolved hindex
    rw [hpoint k]
    exact hnested.halved hdescends hsplits

theorem cutting_nested :
    cutting.validate = .ok cuttingProgram ∧ cuttingProgram.IntegralBounds ∧
      ∃ history state, (State.start cuttingProgram).Judges (bySimplex (finite 0)) (finite 0)
          history state ∧
        state.waiting.length = 2 ∧ (∀ node ∈ state.waiting, Sound cutting cuttingProgram node) ∧
        Halved (⟨cuttingProgram, 0⟩ : Node ExtendedRational 1 2) 0 (finite (5 / 2)) := by
  have hvalid : cutting.validate = .ok cuttingProgram := rfl
  have hsolved : (Simplex.run cuttingProgram (finite 0) 9).result =
      some (.ok (.optimal #v[finite (5 / 2), finite 0] (finite (-5 / 2)))) := by
    with_unfolding_all decide
  have hjudges : (State.start cuttingProgram).Judges (bySimplex (finite 0)) (finite 0) _ _ :=
    .node [] _ .start ⟨cuttingProgram, 0⟩ [] _ rfl ⟨9, hsolved⟩ nofun
  have hverdict : (State.start cuttingProgram).verdict (finite 0) ⟨cuttingProgram, 0⟩
      (.optimal #v[finite (5 / 2), finite 0] (finite (-5 / 2))) = .branched 0 (finite (5 / 2)) := by
    rw [State.verdict, judge_eq_branched (by decide) (k := 0) (by with_unfolding_all decide)]
    rfl
  obtain ⟨hwaiting, hhistory⟩ := nodes_nested hvalid cuttingProgram_integralBounds hjudges
  refine ⟨hvalid, cuttingProgram_integralBounds, _, _, hjudges, ?_,
    fun node hnode ↦ (hwaiting node hnode).1, ?_⟩
  · rw [State.next, State.after, hverdict]
    rfl
  · exact (hhistory _ List.mem_cons_self).2 (0 : Fin 2) _ hverdict

end Model

end MixedInteger
