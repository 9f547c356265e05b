import Mathlib.Logic.Basic
import MixedInteger.Proofs.Program.Cells
import MixedInteger.Proofs.Search.Fractional
import MixedInteger.Proofs.Search.History

/-!
# Integral points through a search

Branching may replace a bound by a weaker one, as nothing keeps a relaxation from answering with a
point outside the bounds of its node.  Integral points are not lost all the same: the value at which
a node is split is never an integer, so floor and ceiling leave none between the two parts, and none
belongs to both.  Hence a point of the root that is integral where it must be is at all times within
a node that waits or that was left without being split.

This asks nothing of the relaxations but finite values, and of the numbers only that they can be
read.
-/

namespace MixedInteger

open ExtendedRational

namespace Reading

variable {α : Type} [Arithmetic α] {m n : ℕ} (reading : Reading α)

/-! ## Parts of a program -/

/-- A point within the bounds of a program as they are read. -/
structure Within (p : Program α m n) (y : Fin n → ℚ) : Prop where
  lower : ∀ j, reading.value (p.lower.get j) ≤ finite (y j)
  upper : ∀ j, finite (y j) ≤ reading.value (p.upper.get j)

variable {reading} {p : Program α m n} {y : Fin n → ℚ} {k : Fin n} {value : α} {v : ℚ} {i : ℤ}

theorem within_tighten_down_iff (hy : reading.Within p y) (hv : reading.value value = finite v)
    (hi : y k = i) : reading.Within (p.tighten k value .down) y ↔ i ≤ ⌊v⌋ := by
  constructor
  · intro hdown
    have hupper := hdown.upper k
    rw [Program.tighten_upper_get, if_pos ⟨rfl, rfl⟩, reading.floor value v hv, hi, finite_le,
      Int.cast_le] at hupper
    exact hupper
  · intro hle
    refine ⟨hy.lower, fun j ↦ ?_⟩
    rw [Program.tighten_upper_get]
    split_ifs with hj
    · rw [hj.2, reading.floor value v hv, hi, finite_le, Int.cast_le]
      exact hle
    · exact hy.upper j

theorem within_tighten_up_iff (hy : reading.Within p y) (hv : reading.value value = finite v)
    (hi : y k = i) : reading.Within (p.tighten k value .up) y ↔ ⌈v⌉ ≤ i := by
  constructor
  · intro hup
    have hlower := hup.lower k
    rw [Program.tighten_lower_get, if_pos ⟨rfl, rfl⟩, reading.ceil value v hv, hi, finite_le,
      Int.cast_le] at hlower
    exact hlower
  · intro hle
    refine ⟨fun j ↦ ?_, hy.upper⟩
    rw [Program.tighten_lower_get]
    split_ifs with hj
    · rw [hj.2, reading.ceil value v hv, hi, finite_le, Int.cast_le]
      exact hle
    · exact hy.lower j

/-- A point that is integral in the variable belongs to exactly one part of a program that is split
at a value which is no integer. -/
theorem Within.xor_tighten (hy : reading.Within p y) (hv : reading.value value = finite v)
    (hapart : ∀ i : ℤ, v ≠ i) (hi : y k = i) :
    Xor (reading.Within (p.tighten k value .down) y)
      (reading.Within (p.tighten k value .up) y) := by
  rw [within_tighten_down_iff hy hv hi, within_tighten_up_iff hy hv hi,
    Program.ceil_eq_floor_add_one hapart]
  unfold Xor
  omega

/-! ## Points that a search keeps -/

open Search

variable (reading) in
/-- All optimal points of relaxations have values that read as finite. -/
def FiniteAnswers (solves : Solves α m n) : Prop :=
  ∀ number q x z, solves number q (.ok (.optimal x z)) →
    ∀ j, ∃ v : ℚ, reading.value (x.get j) = finite v

variable (reading) in
/-- A point is within a node that waits, or within one that was judged and not split. -/
def Keeps (history : List (Judged α m n)) (state : State α m n) (y : Fin n → ℚ) : Prop :=
  (∃ node ∈ state.waiting, reading.Within node.program y) ∨
    ∃ judged ∈ history, judged.Unbranched ∧ reading.Within judged.node.program y

variable {root : Program α m n} {solves : Solves α m n} {tolerance : α}
  {history : List (Judged α m n)} {state : State α m n}

/-- A point of a node that is split is within exactly one of the two children. -/
theorem Within.xor_child {node : Node α m n} {outcome : Outcome α n}
    (hy : reading.Within node.program y)
    (hintegral : ∀ j, node.program.integer.get j = true → ∃ i : ℤ, y j = i)
    (hanswers : ∀ x z, outcome = .optimal x z → ∀ j, ∃ v : ℚ, reading.value (x.get j) = finite v)
    (hverdict : state.verdict tolerance node outcome = .branched k value) :
    Xor (reading.Within (node.child k value .down).program y)
      (reading.Within (node.child k value .up).program y) := by
  obtain ⟨x, z, houtcome, -, hk, rfl⟩ := exists_optimal_of_judge_branched hverdict
  obtain ⟨v, hv⟩ := hanswers x z houtcome k
  obtain ⟨hinteger, hapart⟩ := branchingIndex_eq_some reading hk hv
  obtain ⟨i, hi⟩ := hintegral k hinteger
  exact hy.xor_tighten hv hapart hi

/-- Judging a node loses no point: what is within the node is within one of its children, or the
node is left without being split. -/
theorem Keeps.next {node : Node α m n} {rest : List (Node α m n)} {outcome : Outcome α n}
    (hwaiting : state.waiting = node :: rest)
    (hintegral : ∀ j, node.program.integer.get j = true → ∃ i : ℤ, y j = i)
    (hanswers : ∀ x z, outcome = .optimal x z → ∀ j, ∃ v : ℚ, reading.value (x.get j) = finite v)
    (hkeeps : reading.Keeps history state y) :
    reading.Keeps (history ++ [⟨node, outcome, state.verdict tolerance node outcome⟩])
      (state.next tolerance node rest outcome) y := by
  obtain ⟨other, hother, hy⟩ | ⟨judged, hjudged, hunbranched, hy⟩ := hkeeps
  · rw [hwaiting] at hother
    rcases List.mem_cons.1 hother with rfl | hrest
    · cases hverdict : state.verdict tolerance other outcome with
      | branched k value =>
        left
        have hnext : (state.next tolerance other rest outcome).waiting =
            rest ++ [other.child k value .down, other.child k value .up] := by
          rw [State.next, hverdict]
          rfl
        rw [hnext]
        rcases (hy.xor_child hintegral hanswers hverdict).or with hdown | hup
        · exact ⟨_, List.mem_append_right _ List.mem_cons_self, hdown⟩
        · exact ⟨_, List.mem_append_right _ (List.mem_cons_of_mem _ List.mem_cons_self), hup⟩
      | _ =>
        right
        exact ⟨_, List.mem_append_right _ List.mem_cons_self, nofun, hy⟩
    · exact .inl ⟨other, List.mem_append_left _ hrest, hy⟩
  · exact .inr ⟨judged, List.mem_append_left _ hjudged, hunbranched, hy⟩

/-- The variables that must be integral are the same in all nodes. -/
theorem integer_of_visits (h : (State.start root).Reaches solves tolerance state) :
    ∀ node ∈ state.waiting, node.program.integer = root.integer := by
  refine h.forall_waiting (fun q ↦ q.integer = root.integer) ?_ ?_
  · rintro visited node rest number x z k side - - hnode - -
    rw [Program.tighten_integer, hnode]
  · intro node hnode
    rw [List.mem_singleton.1 hnode]

theorem keeps_of_judges (hfinite : reading.FiniteAnswers solves)
    (h : (State.start root).Judges solves tolerance history state) (hy : reading.Within root y)
    (hintegral : ∀ j, root.integer.get j = true → ∃ i : ℤ, y j = i) :
    reading.Keeps history state y := by
  induction h with
  | start => exact .inl ⟨_, List.mem_cons_self, hy⟩
  | node history visited hvisited node rest outcome hwaiting hsolved _ ih =>
    refine ih.next hwaiting ?_ ?_
    · rw [integer_of_visits hvisited.reaches node (State.mem_waiting hwaiting)]
      exact hintegral
    · rintro x z rfl
      exact hfinite _ _ x z hsolved

/-- A search loses no point of the root that is integral where it must be: at all times the point
is within a node that waits or that was judged and not split, and it is within exactly one of the
two children of every node that it was within and that was split. -/
theorem keeps_integral_points (hfinite : reading.FiniteAnswers solves)
    (h : (State.start root).Judges solves tolerance history state) (hy : reading.Within root y)
    (hintegral : ∀ j, root.integer.get j = true → ∃ i : ℤ, y j = i) :
    reading.Keeps history state y ∧
      ∀ judged ∈ history, ∀ k value, judged.verdict = .branched k value →
        reading.Within judged.node.program y →
        Xor (reading.Within (judged.node.child k value .down).program y)
          (reading.Within (judged.node.child k value .up).program y) := by
  refine ⟨keeps_of_judges hfinite h hy hintegral, ?_⟩
  intro judged hjudged k value hbranched hwithin
  obtain ⟨visited, rest, hreaches, hwaiting, hsolved, hverdict⟩ := h.exists_visited hjudged
  refine hwithin.xor_child ?_ ?_ (hverdict.symm.trans hbranched)
  · rw [integer_of_visits hreaches _ (State.mem_waiting hwaiting)]
    exact hintegral
  · intro x z houtcome
    rw [houtcome] at hsolved
    exact hfinite _ _ x z hsolved

/-- One variable that must be integral. -/
def overshot : Model ExtendedRational :=
  ((Model.ofRows [] [] [finite 1]).boundedBy [finite 0] [finite 3]).withIntegrality [true]

theorem overshot_defect? : overshot.defect? = none := by
  decide

def overshotProgram : Program ExtendedRational 0 1 :=
  overshot.program (Model.shaped_of_defect?_eq_none overshot_defect?)

/-- Relaxations that answer below the bounds, so that the part above their value has the bounds of
the whole. -/
def overshooting : Solves ExtendedRational 0 1 := fun _ _ result ↦
  result = .ok (.optimal #v[finite (-1 / 2)] (finite (-1 / 2)))

theorem overshooting_finiteAnswers : exact.FiniteAnswers overshooting := by
  rintro number q x z hsolved j
  cases hsolved
  exact ⟨-1 / 2, by rw [Fin.fin_one_eq_zero j]; rfl⟩

theorem overshot_verdict :
    (State.start overshotProgram).verdict (finite (-1)) ⟨overshotProgram, 0⟩
      (.optimal #v[finite (-1 / 2)] (finite (-1 / 2))) = .branched 0 (finite (-1 / 2)) := by
  rw [State.verdict, judge_eq_branched (by decide) (k := 0) (by with_unfolding_all decide)]
  rfl

theorem overshotProgram_keeps :
    overshot.validate = .ok overshotProgram ∧ exact.FiniteAnswers overshooting ∧
      ∃ history state,
        (State.start overshotProgram).Judges overshooting (finite (-1)) history state ∧
        exact.Keeps history state (fun _ ↦ 1) ∧
        ∃ judged ∈ history, judged.verdict = .branched 0 (finite (-1 / 2)) ∧
          Xor (exact.Within (judged.node.child 0 (finite (-1 / 2)) .down).program fun _ ↦ 1)
            (exact.Within (judged.node.child 0 (finite (-1 / 2)) .up).program fun _ ↦ 1) := by
  have hjudges : (State.start overshotProgram).Judges overshooting (finite (-1)) _ _ :=
    .node [] _ .start ⟨overshotProgram, 0⟩ [] (.optimal #v[finite (-1 / 2)] (finite (-1 / 2)))
      rfl rfl nofun
  have hwithin : exact.Within overshotProgram (fun _ ↦ 1) := by
    constructor
    · intro j
      rw [Fin.fin_one_eq_zero j]
      exact finite_le.2 (by norm_num)
    · intro j
      rw [Fin.fin_one_eq_zero j]
      exact finite_le.2 (by norm_num)
  obtain ⟨hkeeps, hsplit⟩ :=
    keeps_integral_points overshooting_finiteAnswers hjudges hwithin fun _ _ ↦ ⟨1, by norm_num⟩
  refine ⟨Model.validate_of_defect?_eq_none overshot_defect?, overshooting_finiteAnswers, _, _,
    hjudges, hkeeps, _, List.mem_cons_self, overshot_verdict, ?_⟩
  exact hsplit _ List.mem_cons_self 0 _ overshot_verdict hwithin

/-- A search in which no node waits any more has a history whose unsplit nodes cover all integral
points of the root. -/
theorem exists_covering_history (hfinite : reading.FiniteAnswers solves)
    (h : (State.start root).Reaches solves tolerance state) (hwaiting : state.waiting = []) :
    ∃ history, (State.start root).Judges solves tolerance history state ∧
      ∀ y, reading.Within root y →
        (∀ j, root.integer.get j = true → ∃ i : ℤ, y j = i) →
        ∃ judged ∈ history, judged.Unbranched ∧ reading.Within judged.node.program y := by
  obtain ⟨history, hhistory⟩ := h.exists_judges
  refine ⟨history, hhistory, fun y hy hintegral ↦ ?_⟩
  obtain ⟨node, hnode, -⟩ | hunbranched := keeps_of_judges hfinite hhistory hy hintegral
  · rw [hwaiting] at hnode
    cases hnode
  · exact hunbranched

end Reading

end MixedInteger
