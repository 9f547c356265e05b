import MixedInteger.Proofs.Search.Steps

/-!
# Histories of searches

A state of a search shows which nodes wait, and nothing of those that waited before.  A history
keeps them: it lists the nodes that were judged on the way from one state to another, each with the
outcome of its relaxation and the verdict.  Every state that is reached has a history, and without
it the steps remain.
-/

namespace MixedInteger

namespace Search

variable {α : Type} [Arithmetic α] {m n : Nat}

/-- A node with the outcome of its relaxation and the verdict on it. -/
structure Judged (α : Type) (m n : Nat) where
  node : Node α m n
  outcome : Outcome α n
  verdict : Verdict α n

/-- No nodes have come from this one. -/
def Judged.Unbranched (judged : Judged α m n) : Prop :=
  ∀ k value, judged.verdict ≠ .branched k value

namespace State

/-- The search passes from a state to a later one and judges the listed nodes, the last one last. -/
inductive Judges (solves : Solves α m n) (tolerance : α) (state : State α m n) :
    List (Judged α m n) → State α m n → Prop where
  | start : Judges solves tolerance state [] state
  | node (history : List (Judged α m n)) (visited : State α m n)
      (hvisited : Judges solves tolerance state history visited)
      (node : Node α m n) (rest : List (Node α m n)) (outcome : Outcome α n)
      (hwaiting : visited.waiting = node :: rest)
      (hsolved : solves (visited.statistics.nodes + 1) node.program (.ok outcome))
      (hbounded : outcome ≠ .unbounded) :
      Judges solves tolerance state
        (history ++ [⟨node, outcome, visited.verdict tolerance node outcome⟩])
        (visited.next tolerance node rest outcome)

variable {solves : Solves α m n} {tolerance : α} {state later : State α m n}
  {history : List (Judged α m n)}

theorem Judges.reaches (h : state.Judges solves tolerance history later) :
    state.Reaches solves tolerance later := by
  induction h with
  | start => exact .refl
  | node history visited _ node rest outcome hwaiting hsolved hbounded ih =>
    exact ih.tail (.node node rest outcome hwaiting hsolved hbounded)

theorem Reaches.exists_judges (h : state.Reaches solves tolerance later) :
    ∃ history, state.Judges solves tolerance history later := by
  induction h with
  | refl => exact ⟨[], .start⟩
  | tail _ hnext ih =>
    obtain ⟨history, hvisited⟩ := ih
    cases hnext with
    | node node rest outcome hwaiting hsolved hbounded =>
      exact ⟨_, .node history _ hvisited node rest outcome hwaiting hsolved hbounded⟩

/-- A judged node was the first one waiting in a state that was reached, and the verdict followed
from what its relaxation answered. -/
theorem Judges.exists_visited (h : state.Judges solves tolerance history later)
    {judged : Judged α m n} (hjudged : judged ∈ history) :
    ∃ visited rest, state.Reaches solves tolerance visited ∧
      visited.waiting = judged.node :: rest ∧
      solves (visited.statistics.nodes + 1) judged.node.program (.ok judged.outcome) ∧
      judged.verdict = visited.verdict tolerance judged.node judged.outcome := by
  induction h with
  | start => cases hjudged
  | node history visited hvisited node rest outcome hwaiting hsolved _ ih =>
    rcases List.mem_append.1 hjudged with hearlier | hlast
    · exact ih hearlier
    · obtain rfl := List.mem_singleton.1 hlast
      exact ⟨visited, rest, hvisited.reaches, hwaiting, hsolved, rfl⟩

/-- A node that waits is one that the search began with, or a child of a node that was judged. -/
theorem Judges.exists_parent (h : state.Judges solves tolerance history later)
    {node : Node α m n} (hnode : node ∈ later.waiting) :
    node ∈ state.waiting ∨ ∃ judged ∈ history, ∃ k value side,
      judged.verdict = .branched k value ∧ node = judged.node.child k value side := by
  induction h with
  | start => exact .inl hnode
  | node history visited _ parent rest outcome hwaiting _ _ ih =>
    rcases List.mem_append.1 hnode with hrest | hnew
    · obtain hstart | ⟨judged, hjudged, hchild⟩ :=
        ih (by rw [hwaiting]; exact List.mem_cons_of_mem _ hrest)
      · exact .inl hstart
      · exact .inr ⟨judged, List.mem_append_left _ hjudged, hchild⟩
    · change node ∈ parent.children (visited.verdict tolerance parent outcome) at hnew
      refine .inr ⟨_, List.mem_append_right _ List.mem_cons_self, ?_⟩
      cases hverdict : visited.verdict tolerance parent outcome with
      | branched k value =>
        rw [hverdict] at hnew
        simp only [Node.children, List.mem_cons, List.not_mem_nil, or_false] at hnew
        rcases hnew with hdown | hup
        · exact ⟨k, value, .down, rfl, hdown⟩
        · exact ⟨k, value, .up, rfl, hup⟩
      | _ =>
        rw [hverdict] at hnew
        cases hnew

end State

end Search

end MixedInteger
