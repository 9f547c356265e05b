import MixedInteger.Proofs.Search.Tally

/-!
# The order of a search

Nodes are taken up in the order in which they began to wait, and the parts of a node begin to wait
behind all others.  So all nodes, those that were taken up and those that still wait, are in one
order that the splits determine: the root, then the parts of the first split, then those of the
second.  It numbers the parts of a split, it lists nodes by their depths, and it makes the events
enough to rebuild the tree: each of them is about the node that comes next.

The lineage of a node is the list of the bound changes that separate it from the root.
-/

namespace MixedInteger

variable {α : Type} {m n : Nat}

/-! ## Lineages -/

/-- A change of a bound, which keeps one side of a value for variable `k`. -/
structure Change (α : Type) (n : Nat) where
  k : Fin n
  value : α
  side : Side

/-- The changes that separate a node from the root, those nearer to the root first. -/
abbrev Lineage (α : Type) (n : Nat) : Type := List (Change α n)

/-- The program after some changes of its bounds. -/
def Program.tightenAll [Arithmetic α] (p : Program α m n) (lineage : Lineage α n) :
    Program α m n :=
  lineage.foldl (fun p change ↦ p.tighten change.k change.value change.side) p

namespace Search

/-- The lineages of the parts into which a verdict splits a node. -/
def Verdict.parts (lineage : Lineage α n) : Verdict α n → List (Lineage α n)
  | .branched k value => [lineage ++ [⟨k, value, .down⟩], lineage ++ [⟨k, value, .up⟩]]
  | _ => []

section Node

variable [Arithmetic α]

/-- The node that a lineage leads to. -/
def Node.below (root : Program α m n) (lineage : Lineage α n) : Node α m n where
  program := root.tightenAll lineage
  depth := lineage.length

theorem Node.below_concat (root : Program α m n) (lineage : Lineage α n) (k : Fin n) (value : α)
    (side : Side) :
    Node.below root (lineage ++ [⟨k, value, side⟩]) =
      (Node.below root lineage).child k value side := by
  unfold Node.below Node.child Program.tightenAll
  rw [List.foldl_concat, List.length_append, List.length_singleton]

theorem Node.children_below (root : Program α m n) (lineage : Lineage α n)
    (verdict : Verdict α n) :
    (Node.below root lineage).children verdict =
      (verdict.parts lineage).map (Node.below root) := by
  cases verdict with
  | branched k value => simp only [Node.children, Verdict.parts, List.map, Node.below_concat]
  | _ => rfl

end Node

/-! ## The tree that events tell -/

/-- The lineages of the nodes of a tree, in their order: of those that events have been about, and
of those that wait for one. -/
structure Outline (α : Type) (n : Nat) where
  taken : List (Lineage α n)
  waiting : List (Lineage α n)

namespace Outline

/-- The root waits. -/
def start : Outline α n where
  taken := []
  waiting := [[]]

/-- An event is about the first node that waits, and the parts of that node wait behind the
others. -/
def add (outline : Outline α n) (event : NodeEvent α n) : Outline α n :=
  match outline.waiting with
  | [] => outline
  | lineage :: others =>
    { taken := outline.taken ++ [lineage]
      waiting := others ++ event.verdict.parts lineage }

theorem add_of_waiting {outline : Outline α n} {lineage : Lineage α n}
    {others : List (Lineage α n)} (h : outline.waiting = lineage :: others)
    (event : NodeEvent α n) :
    outline.add event =
      { taken := outline.taken ++ [lineage]
        waiting := others ++ event.verdict.parts lineage } := by
  rw [add, h]

/-- The tree that a list of events tells, of which nothing else is known. -/
def ofEvents (events : List (NodeEvent α n)) : Outline α n :=
  events.foldl add start

theorem ofEvents_concat (events : List (NodeEvent α n)) (event : NodeEvent α n) :
    ofEvents (events ++ [event]) = (ofEvents events).add event :=
  List.foldl_concat add start event events

variable [Arithmetic α]

/-- The outline lists the lineages of the nodes that were taken up, and of those that wait. -/
structure Describes (root : Program α m n) (outline : Outline α n)
    (taken waiting : List (Node α m n)) : Prop where
  taken : taken = outline.taken.map (Node.below root)
  waiting : waiting = outline.waiting.map (Node.below root)

theorem describes_start (root : Program α m n) :
    (start : Outline α n).Describes root [] (State.start root).waiting where
  taken := rfl
  waiting := rfl

/-- The event of a turn tells the outline what the turn does to the queue. -/
theorem Describes.after {solves : Solves α m n} {turn : Turn α m n} {root : Program α m n}
    {outline : Outline α n} {taken : List (Node α m n)}
    (h : outline.Describes root taken turn.state.waiting) (htaken : turn.Taken solves)
    (tolerance : α) :
    (outline.add (turn.event tolerance)).Describes root (taken ++ [turn.node])
      (turn.after tolerance).waiting := by
  have hqueue : turn.node :: turn.rest = outline.waiting.map (Node.below root) := by
    rw [← htaken.waiting, h.waiting]
  cases hwaiting : outline.waiting with
  | nil =>
    rw [hwaiting] at hqueue
    cases hqueue
  | cons lineage others =>
    rw [hwaiting] at hqueue
    obtain ⟨hnode, hrest⟩ := List.cons.inj hqueue
    rw [add_of_waiting hwaiting]
    constructor
    · rw [h.taken, hnode, List.map_append]
      rfl
    · rw [Turn.after_waiting, hnode, hrest, Node.children_below]
      exact List.map_append.symm

end Outline

section Takes

variable [Arithmetic α] {solves : Solves α m n} {tolerance : α} {root : Program α m n}
  {last : State α m n} {turns : List (Turn α m n)}

/-- At every point of a search, the events so far tell the nodes taken up and those that wait. -/
theorem State.Takes.describes (h : (State.start root).Takes solves tolerance turns last) :
    (Outline.ofEvents (turns.map (Turn.event tolerance))).Describes root (turns.map Turn.node)
      last.waiting := by
  induction h with
  | start => exact Outline.describes_start root
  | turn earlier turn _ htaken _ ih =>
    rw [List.map_append, List.map_append, List.map_singleton, List.map_singleton,
      Outline.ofEvents_concat]
    exact ih.after htaken tolerance

/-! ## The order of the nodes -/

/-- The nodes that a turn adds. -/
def Turn.children (tolerance : α) (turn : Turn α m n) : List (Node α m n) :=
  turn.node.children (turn.verdict tolerance)

theorem Turn.length_children (tolerance : α) (turn : Turn α m n) :
    (turn.children tolerance).length = 2 * (turn.event tolerance).verdict.splits.toNat :=
  Node.length_children _ _

/-- The nodes taken up and those that wait are the root and the parts of the splits, in the order
of the splits. -/
theorem State.Takes.order (h : (State.start root).Takes solves tolerance turns last) :
    turns.map Turn.node ++ last.waiting = ⟨root, 0⟩ :: turns.flatMap (Turn.children tolerance) := by
  induction h with
  | start => rfl
  | turn earlier turn _ htaken _ ih =>
    calc
      (earlier ++ [turn]).map Turn.node ++ (turn.rest ++ turn.children tolerance) =
          (earlier.map Turn.node ++ (turn.node :: turn.rest)) ++ turn.children tolerance := by
        simp
      _ = (⟨root, 0⟩ :: earlier.flatMap (Turn.children tolerance)) ++ turn.children tolerance := by
        rw [← htaken.waiting, ih]
      _ = ⟨root, 0⟩ :: (earlier ++ [turn]).flatMap (Turn.children tolerance) := by
        simp

/-- Each split contributes two parts to the order. -/
theorem length_flatMap_children (tolerance : α) (turns : List (Turn α m n)) :
    (turns.flatMap (Turn.children tolerance)).length =
      2 * splits (turns.map (Turn.event tolerance)) := by
  induction turns using List.reverseRecOn with
  | nil => rfl
  | append_singleton earlier turn ih =>
    rw [List.flatMap_append, List.length_append, ih, List.flatMap_singleton, Turn.length_children,
      List.map_append, List.map_singleton, splits_concat, Nat.mul_add]

omit [Arithmetic α] in
theorem splits_take_succ {events : List (NodeEvent α n)} {j : Nat} {event : NodeEvent α n}
    (h : events[j]? = some event) :
    splits (events.take (j + 1)) = splits (events.take j) + event.verdict.splits.toNat := by
  rw [List.take_add_one, h, Option.toList_some, splits_concat]

/-- The number of a part of the `i`-th split. -/
def partNumber (i : Nat) : Side → Nat
  | .down => 2 * i
  | .up => 2 * i + 1

/-- The parts of a split come in the order under their numbers, whether or not they are taken up. -/
theorem State.Takes.order_part (h : (State.start root).Takes solves tolerance turns last) {j : Nat}
    {parent : Turn α m n} (hparent : turns[j]? = some parent) {k : Fin n} {value : α}
    (hsplit : parent.verdict tolerance = .branched k value) (side : Side) :
    (turns.map Turn.node ++ last.waiting)[
        partNumber (splits ((turns.map (Turn.event tolerance)).take j) + 1) side - 1]? =
      some (parent.node.child k value side) := by
  obtain ⟨hj, hget⟩ := List.getElem?_eq_some_iff.1 hparent
  have hturns : turns.take j ++ parent :: turns.drop (j + 1) = turns := by
    rw [← hget, List.getElem_cons_drop, List.take_append_drop]
  have hchildren : parent.children tolerance =
      [parent.node.child k value .down, parent.node.child k value .up] := by
    rw [Turn.children, hsplit]
    rfl
  have horder : turns.map Turn.node ++ last.waiting =
      (⟨root, 0⟩ :: (turns.take j).flatMap (Turn.children tolerance)) ++
        (parent.children tolerance ++
          (turns.drop (j + 1)).flatMap (Turn.children tolerance)) := by
    calc
      turns.map Turn.node ++ last.waiting =
          ⟨root, 0⟩ :: turns.flatMap (Turn.children tolerance) := h.order
      _ = ⟨root, 0⟩ :: (turns.take j ++ parent :: turns.drop (j + 1)).flatMap
            (Turn.children tolerance) := by
        rw [hturns]
      _ = _ := by
        rw [List.flatMap_append, List.flatMap_cons, List.cons_append]
  have hearlier := length_flatMap_children tolerance (turns.take j)
  rw [List.map_take] at hearlier
  rw [horder, hchildren, List.getElem?_append_right]
  · rw [List.length_cons, hearlier]
    cases side <;> simp [partNumber, Nat.mul_add]
  · rw [List.length_cons, hearlier]
    cases side <;> simp only [partNumber] <;> omega

end Takes

/-! ## Depths -/

variable [Arithmetic α]

theorem Node.depth_of_mem_children {node child : Node α m n} {verdict : Verdict α n}
    (h : child ∈ node.children verdict) : child.depth = node.depth + 1 := by
  cases verdict with
  | branched k value =>
    rcases List.mem_pair.1 h with rfl | rfl
    · rfl
    · rfl
  | _ => cases h

/-- Deeper nodes come later, and those that wait are of two neighbouring depths at most. -/
structure Layered (taken waiting : List (Node α m n)) : Prop where
  sorted : (taken ++ waiting).Pairwise fun earlier later ↦ earlier.depth ≤ later.depth
  narrow : ∀ first rest, waiting = first :: rest → ∀ node ∈ rest, node.depth ≤ first.depth + 1

omit [Arithmetic α] in
theorem layered_start (root : Node α m n) : Layered [] [root] where
  sorted := List.pairwise_singleton _ root
  narrow := by
    intro first rest h node hnode
    obtain ⟨-, rfl⟩ := List.cons.inj h
    cases hnode

section Layered

variable {taken rest : List (Node α m n)} {node : Node α m n}

omit [Arithmetic α] in
/-- No node is more than one deeper than the next one. -/
theorem Layered.depth_le (h : Layered taken (node :: rest)) {other : Node α m n}
    (hother : other ∈ taken ++ node :: rest) : other.depth ≤ node.depth + 1 := by
  obtain ⟨-, -, hacross⟩ := List.pairwise_append.1 h.sorted
  rcases List.mem_append.1 hother with htaken | hwaits
  · exact Nat.le_succ_of_le (hacross other htaken node List.mem_cons_self)
  · rcases List.mem_cons.1 hwaits with rfl | hrest
    · exact Nat.le_succ _
    · exact h.narrow node rest rfl other hrest

/-- What waits after a node has been taken up is as deep as that node or one deeper. -/
theorem Layered.near (h : Layered taken (node :: rest)) {verdict : Verdict α n}
    {other : Node α m n} (hother : other ∈ rest ++ node.children verdict) :
    node.depth ≤ other.depth ∧ other.depth ≤ node.depth + 1 := by
  obtain ⟨-, hqueue, -⟩ := List.pairwise_append.1 h.sorted
  rcases List.mem_append.1 hother with hrest | hchild
  · exact ⟨List.rel_of_pairwise_cons hqueue hrest, h.narrow node rest rfl other hrest⟩
  · rw [Node.depth_of_mem_children hchild]
    exact ⟨Nat.le_succ _, le_rfl⟩

/-- Taking up a node keeps the layers: its parts are one deeper than it, and so not less deep than
any node before them. -/
theorem Layered.after (h : Layered taken (node :: rest)) (verdict : Verdict α n) :
    Layered (taken ++ [node]) (rest ++ node.children verdict) := by
  constructor
  · have horder : (taken ++ [node]) ++ (rest ++ node.children verdict) =
        (taken ++ node :: rest) ++ node.children verdict := by
      simp
    rw [horder, List.pairwise_append]
    refine ⟨h.sorted, ?_, fun other hother child hchild ↦ ?_⟩
    · apply List.pairwise_of_forall_mem_list
      intro child hchild other hother
      rw [Node.depth_of_mem_children hchild, Node.depth_of_mem_children hother]
    · rw [Node.depth_of_mem_children hchild]
      exact h.depth_le hother
  · intro first others hwaiting other hother
    have hfirst : first ∈ rest ++ node.children verdict := by
      rw [hwaiting]
      exact List.mem_cons_self
    have hlater : other ∈ rest ++ node.children verdict := by
      rw [hwaiting]
      exact List.mem_cons_of_mem _ hother
    calc
      other.depth ≤ node.depth + 1 := (h.near hlater).2
      _ ≤ first.depth + 1 := Nat.succ_le_succ (h.near hfirst).1

end Layered

section Takes

variable {solves : Solves α m n} {tolerance : α} {root : Program α m n} {last : State α m n}
  {turns : List (Turn α m n)}

theorem State.Takes.layered (h : (State.start root).Takes solves tolerance turns last) :
    Layered (turns.map Turn.node) last.waiting := by
  induction h with
  | start => exact layered_start _
  | turn earlier turn _ htaken _ ih =>
    rw [htaken.waiting] at ih
    rw [List.map_append, List.map_singleton, Turn.after_waiting]
    exact ih.after _

/-! ## Breadth first -/

/-- Every part of a split that is taken up has the number that the place of the split among the
splits gives it, and is one deeper than the node that is split. -/
def Halves (tolerance : α) (turns : List (Turn α m n)) : Prop :=
  ∀ j parent k value, turns[j]? = some parent → parent.verdict tolerance = .branched k value →
    ∀ i, splits ((turns.map (Turn.event tolerance)).take (j + 1)) = i →
      ∀ side, partNumber i side ≤ turns.length →
        ∃ part, turns[partNumber i side - 1]? = some part ∧
          part.node = parent.node.child k value side ∧
          (part.event tolerance).node = partNumber i side ∧
          (part.event tolerance).depth = (parent.event tolerance).depth + 1

theorem State.Takes.halves (h : (State.start root).Takes solves tolerance turns last) :
    Halves tolerance turns := by
  intro j parent k value hparent hsplit i hi side hside
  have hevent : (turns.map (Turn.event tolerance))[j]? = some (parent.event tolerance) := by
    rw [List.getElem?_map, hparent, Option.map_some]
  have hplace : splits ((turns.map (Turn.event tolerance)).take j) + 1 = i := by
    rw [← hi, splits_take_succ hevent, Turn.event_verdict, hsplit]
    rfl
  have hpositive : 0 < partNumber i side := by
    cases side <;> simp only [partNumber] <;> omega
  have hbelow : partNumber i side - 1 < turns.length := by
    omega
  obtain ⟨part, hpart⟩ : ∃ part, turns[partNumber i side - 1]? = some part :=
    ⟨_, List.getElem?_eq_getElem hbelow⟩
  have hnode : part.node = parent.node.child k value side := by
    have horder := h.order_part hparent hsplit side
    rw [hplace, List.getElem?_append_left (by rwa [List.length_map]), List.getElem?_map, hpart,
      Option.map_some] at horder
    exact Option.some.inj horder
  have hnumber : (part.event tolerance).node = partNumber i side := by
    have htold : (turns.map (Turn.event tolerance))[partNumber i side - 1]? =
        some (part.event tolerance) := by
      rw [List.getElem?_map, hpart, Option.map_some]
    rw [(h.numbered _ _ htold).1]
    exact Nat.sub_add_cancel hpositive
  have hdepth : (part.event tolerance).depth = (parent.event tolerance).depth + 1 :=
    congrArg Node.depth hnode
  exact ⟨part, hpart, hnode, hnumber, hdepth⟩

/-- The events of a search show a tree that is searched breadth first, in which the turns were
taken and some nodes are left waiting. -/
structure BreadthFirst (root : Program α m n) (tolerance : α) (events : List (NodeEvent α n))
    (turns : List (Turn α m n)) (waiting : List (Node α m n)) : Prop where
  told : events = turns.map (Turn.event tolerance)
  halves : Halves tolerance turns
  /-- The events alone tell the bound changes that lead to each node. -/
  outline : (Outline.ofEvents events).Describes root (turns.map Turn.node) waiting
  /-- The depth of a node is the number of these changes. -/
  depths : events.map NodeEvent.depth = (Outline.ofEvents events).taken.map List.length
  sorted : (events.map NodeEvent.depth).Pairwise (· ≤ ·)

theorem State.Takes.breadthFirst (h : (State.start root).Takes solves tolerance turns last) :
    BreadthFirst root tolerance (turns.map (Turn.event tolerance)) turns last.waiting where
  told := rfl
  halves := h.halves
  outline := h.describes
  depths := by
    calc
      (turns.map (Turn.event tolerance)).map NodeEvent.depth =
          (turns.map Turn.node).map Node.depth := by
        rw [List.map_map, List.map_map]
        rfl
      _ = _ := by
        rw [h.describes.taken, List.map_map]
        rfl
  sorted := by
    obtain ⟨hnodes, -, -⟩ := List.pairwise_append.1 h.layered.sorted
    rw [List.pairwise_map] at hnodes
    rw [List.pairwise_map, List.pairwise_map]
    exact hnodes

end Takes

/-- The events of a search are those of turns that are taken breadth first. -/
theorem exists_breadthFirst (relax : Relaxation α m n) (tolerance : α) (nodes : Nat)
    (root : Program α m n) :
    ∃ turns last, (State.start root).Takes relax.Solves tolerance turns last ∧
      BreadthFirst root tolerance
        ((Search.run relax tolerance nodes root).records.filterMap Record.nodeEvent?) turns
        last.waiting := by
  obtain ⟨turns, last, htakes, hevents, -⟩ :=
    State.exists_turns relax tolerance nodes (State.start root)
  refine ⟨turns, last, htakes, ?_⟩
  rw [Search.run, hevents]
  exact htakes.breadthFirst

end Search

namespace Model

open Search ExtendedRational

variable {α : Type} [Arithmetic α] {m n : Nat}

/-- Whatever the relaxations answer, a search is breadth first: the parts of its `i`-th split are
the nodes `2 * i` and `2 * i + 1` once they are taken up, the depth of a node is one more than that
of the node it is a part of and counts the bound changes that separate it from the root, depths
never decrease, and the events alone tell the tree.  So it is when a model is solved. -/
theorem search_breadth_first (relax : Relaxation α m n) (tolerance : α) (nodes : Nat)
    (root : Program α m n) (model : Model α) (settings : Settings α) (allowance : Allowance) :
    (∃ turns last, (State.start root).Takes relax.Solves tolerance turns last ∧
      BreadthFirst root tolerance
        ((Search.run relax tolerance nodes root).records.filterMap Record.nodeEvent?) turns
        last.waiting) ∧
    ∀ p, model.validate = .ok p → ∃ turns last,
      (State.start p).Takes (simplexRuns settings.tolerance allowance.iterations).Solves
        settings.integrality turns last ∧
      BreadthFirst p settings.integrality
        ((model.solve settings allowance).records.filterMap Record.nodeEvent?) turns
        last.waiting := by
  refine ⟨exists_breadthFirst relax tolerance nodes root, fun p hvalid ↦ ?_⟩
  rw [records_solve hvalid, Model.search]
  exact exists_breadthFirst _ _ _ p

theorem packing_breadth_first :
    packing.validate = .ok packingProgram ∧
      ((packing.solve ⟨finite 0, finite 0⟩ ⟨20, 20⟩).records.filterMap Record.nodeEvent?).map
        NodeEvent.depth = [0, 1, 1, 2, 2] ∧
      ∃ turns last,
        (State.start packingProgram).Takes (simplexRuns (finite 0) 20).Solves (finite 0) turns
          last ∧
        BreadthFirst packingProgram (finite 0)
          ((packing.solve ⟨finite 0, finite 0⟩ ⟨20, 20⟩).records.filterMap Record.nodeEvent?)
          turns last.waiting := by
  refine ⟨rfl, by with_unfolding_all decide, ?_⟩
  exact (search_breadth_first (simplexRuns (finite 0) 20) (finite 0) 20 packingProgram packing
    ⟨finite 0, finite 0⟩ ⟨20, 20⟩).2 packingProgram rfl

end Model

end MixedInteger
