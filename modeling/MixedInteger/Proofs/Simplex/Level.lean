import Mathlib.Data.Fintype.BigOperators
import Mathlib.Data.Prod.Lex
import MixedInteger.Proofs.Simplex.Bounds
import MixedInteger.Proofs.Simplex.Objective

/-!
# Levels of a run

The level of a state is its phase together with the objective of that phase.  With tolerance zero no
iteration raises it, and an iteration lowers it when it ends the first phase or moves a variable by
a positive step.  On the other hand the level depends on nothing but the phase and the standings:
these fix the nonbasic variables at their bounds, and the objective does not see the basic ones.  So
iterations that lower the level begin with different standings, and there are only finitely many of
these.
-/

open Matrix
open scoped BigOperators

namespace MixedInteger

open Arithmetic ExtendedRational

namespace Simplex

/-! ## Standings -/

instance : Fintype Phase where
  elems := {.one, .two}
  complete phase := by cases phase <;> simp

instance : Fintype Standing where
  elems := {.basic, .atLower, .atUpper}
  complete standing := by cases standing <;> simp

variable {m n : ℕ} {p : Program ExtendedRational m n}

/-- Where all variables stand.  An artificial variable has no upper bound, so that there are two
standings for it and three for a structural one. -/
abbrev Standings (m n : ℕ) := (Fin n → Standing) × (Fin m → Bool)

theorem card_standings : Fintype.card (Standings m n) = 3 ^ n * 2 ^ m := by
  have hstanding : Fintype.card Standing = 3 := rfl
  rw [Fintype.card_prod, Fintype.card_fun, Fintype.card_fun, hstanding, Fintype.card_bool,
    Fintype.card_fin, Fintype.card_fin]

namespace Tableau

def standings (t : Tableau ExtendedRational m n) : Standings m n :=
  (fun j ↦ t.standing.get (.structural j),
    fun i ↦ decide (t.standing.get (.artificial i) = .basic))

variable {t u : Tableau ExtendedRational m n} {phase : Phase}

theorem standing_eq_of_standings (ht : t.Rational) (htp : t.Placed p) (hu : u.Rational)
    (hup : u.Placed p) (h : t.standings = u.standings) (v : Variable m n) :
    t.standing.get v = u.standing.get v := by
  obtain ⟨hstructural, hartificial⟩ := Prod.mk.inj h
  cases v with
  | structural j => exact congrFun hstructural j
  | artificial i =>
    have hbasic : t.standing.get (.artificial i) = .basic ↔
        u.standing.get (.artificial i) = .basic :=
      decide_eq_decide.1 (congrFun hartificial i)
    by_cases hi : t.standing.get (.artificial i) = .basic
    · rw [hi, hbasic.1 hi]
    · rw [htp.artificial_standing ht hi, hup.artificial_standing hu (mt hbasic.2 hi)]

/-- A nonbasic variable has the same value wherever it stands at the same bound. -/
theorem point_eq_of_nonbasic (htp : t.Placed p) (hup : u.Placed p) {v : Variable m n}
    (hv : t.standing.get v ≠ .basic) (h : t.standing.get v = u.standing.get v) :
    t.point v = u.point v := by
  unfold point
  cases hstanding : t.standing.get v with
  | basic => exact absurd hstanding hv
  | atLower => rw [htp.atLower v hstanding, hup.atLower v (h.symm.trans hstanding)]
  | atUpper => rw [htp.atUpper v hstanding, hup.atUpper v (h.symm.trans hstanding)]

/-- The objective depends on the standings alone. -/
theorem cost_eq_of_standing (hp : p.Admissible) (ht : t.Exact p) (hc : t.Consistent p phase)
    (htp : t.Placed p) (hu : u.Exact p) (hup : u.Placed p)
    (h : ∀ v, t.standing.get v = u.standing.get v) :
    phaseCosts p phase ⬝ᵥ t.point = phaseCosts p phase ⬝ᵥ u.point := by
  have hrows : extendedMatrix p *ᵥ t.point = extendedMatrix p *ᵥ u.point :=
    ht.rows.trans hu.rows.symm
  have hterm (v : Variable m n) : t.reducedCost p phase v * (u.point v - t.point v) = 0 := by
    by_cases hv : t.standing.get v = .basic
    · obtain ⟨r, rfl⟩ := (hc.basic_iff v).1 hv
      rw [reducedCost_basic hp ht hc, zero_mul]
    · rw [point_eq_of_nonbasic htp hup hv (h v), sub_self, mul_zero]
  have hcost := t.cost_sub_cost phase hrows
  rw [Finset.sum_eq_zero fun v _ ↦ hterm v] at hcost
  exact (sub_eq_zero.1 hcost).symm

end Tableau

/-! ## Levels -/

/-- A regular state whose point is within bounds. -/
structure State.Proper (state : State ExtendedRational m n) (p : Program ExtendedRational m n) :
    Prop extends State.Regular state p where
  bounded : state.tableau.Bounded p

theorem State.start_proper (hp : p.Valid) : (State.start p).Proper p :=
  { State.start_regular hp.toAdmissible with bounded := Tableau.start_bounded hp }

theorem State.Proper.next (hp : p.Valid) {state next : State ExtendedRational m n}
    (hstate : state.Proper p) {event : Event ExtendedRational m n}
    (h : state.advance p (finite 0) = .next event next) : next.Proper p :=
  have hnext := continues_of_advance h
  { hnext.regular hp.toAdmissible le_rfl (separated_zero p) hstate.toRegular with
    bounded := hnext.bounded hp hstate.toRegular hstate.bounded }

namespace State

/-- The phase and its objective, where the first phase is above the second. -/
def level (p : Program ExtendedRational m n) (state : State ExtendedRational m n) : ℕ ×ₗ ℚ :=
  toLex (if state.phase = .one then 1 else 0, phaseCosts p state.phase ⬝ᵥ state.tableau.point)

variable {state next later : State ExtendedRational m n} {allowance : ℕ}

/-- States of one phase compare as their objectives do. -/
theorem level_le_iff (h : later.phase = state.phase) :
    later.level p ≤ state.level p ↔
      phaseCosts p state.phase ⬝ᵥ later.tableau.point ≤
        phaseCosts p state.phase ⬝ᵥ state.tableau.point := by
  unfold level
  rw [h, Prod.Lex.toLex_le_toLex]
  simp only [lt_irrefl, false_or, true_and]

theorem level_lt_iff (h : later.phase = state.phase) :
    later.level p < state.level p ↔
      phaseCosts p state.phase ⬝ᵥ later.tableau.point <
        phaseCosts p state.phase ⬝ᵥ state.tableau.point := by
  unfold level
  rw [h, Prod.Lex.toLex_lt_toLex]
  simp only [lt_irrefl, false_or, true_and]

/-- States of one phase and with the same standings have the same level. -/
theorem level_eq_of_standings (hp : p.Admissible) (hstate : state.Regular p)
    (hlater : later.Regular p) (hphase : state.phase = later.phase)
    (h : state.tableau.standings = later.tableau.standings) : state.level p = later.level p := by
  have hstanding := Tableau.standing_eq_of_standings hstate.exact.toRational hstate.placed
    hlater.exact.toRational hlater.placed h
  have hcost := Tableau.cost_eq_of_standing hp hstate.exact hstate.consistent hstate.placed
    hlater.exact hlater.placed hstanding
  unfold level
  rw [hcost, hphase]

/-- An iteration at tolerance zero, in exact arithmetic: it ends the first phase, or it takes the
point along the heading of the entering variable by a step that is not negative. -/
theorem exact_event_of_advance (hp : p.Valid) (hstate : state.Proper p)
    {event : Event ExtendedRational m n} (h : state.advance p (finite 0) = .next event next) :
    (event = .secondPhase (state.iterations + 1) ∧ state.phase = .one ∧ next.phase = .two) ∨
      ∃ s leaving, ∃ ρ : ℚ, 0 ≤ ρ ∧
        event = .pivot (state.iterations + 1) state.phase s leaving (finite ρ) ∧
        state.entering? p (finite 0) = some s ∧ next.phase = state.phase ∧
        next.tableau.point = state.tableau.point + ρ • state.tableau.heading p s := by
  have ht := hstate.exact.toRational
  obtain ⟨hevent, hphase, rfl⟩ | ⟨s, -, hentering, -⟩ := event_of_advance h
  · exact .inl ⟨hevent, hphase, rfl⟩
  · obtain ⟨ρ, henters⟩ := exists_enters hp.toAdmissible le_rfl ht hentering h
    have hnonneg := henters.attains.step_nonneg hp le_rfl ht hstate.bounded
    exact .inr ⟨s, _, ρ, hnonneg, henters.event, hentering, henters.phase, henters.point⟩

end State

/-- The event tells of progress: the first phase ends, or a variable moves. -/
def Event.progresses : Event ExtendedRational m n → Bool
  | .secondPhase _ => true
  | .pivot _ _ _ _ step => decide (0 < step)
  | _ => false

namespace State

variable {state next later : State ExtendedRational m n} {allowance : ℕ}

/-- The iteration that a state begins makes progress. -/
def progresses (p : Program ExtendedRational m n) (state : State ExtendedRational m n) : Bool :=
  (state.event? p (finite 0)).any Event.progresses

/-- No iteration raises the level, and progress lowers it. -/
theorem level_of_advance (hp : p.Valid) (hstate : state.Proper p)
    {event : Event ExtendedRational m n} (h : state.advance p (finite 0) = .next event next) :
    next.level p ≤ state.level p ∧
      (event.progresses = true → next.level p < state.level p) := by
  obtain ⟨rfl, hone, htwo⟩ | ⟨s, leaving, ρ, hρ, rfl, hentering, hphase, hpoint⟩ :=
    exact_event_of_advance hp hstate h
  · have hlt : next.level p < state.level p := by
      unfold level
      rw [hone, htwo, Prod.Lex.toLex_lt_toLex]
      exact .inl Nat.one_pos
    exact ⟨hlt.le, fun _ ↦ hlt⟩
  · have hfalls := cost_heading_neg hp.toAdmissible le_rfl hstate.exact hstate.consistent hentering
    rw [neg_zero] at hfalls
    rw [level_le_iff hphase, level_lt_iff hphase, hpoint, dotProduct_add, dotProduct_smul,
      smul_eq_mul]
    refine ⟨?_, fun hprogress ↦ ?_⟩
    · exact add_le_of_nonpos_right (mul_nonpos_of_nonneg_of_nonpos hρ hfalls.le)
    · have hpos : 0 < ρ := finite_lt.1 (of_decide_eq_true hprogress)
      exact add_lt_of_neg_right _ (mul_neg_of_pos_of_neg hpos hfalls)

/-- No later head is above a state. -/
theorem level_le_of_mem_heads (hp : p.Valid) (hstate : state.Proper p)
    (h : later ∈ state.heads p (finite 0) allowance) : later.level p ≤ state.level p := by
  induction allowance generalizing state with
  | zero => cases h
  | succ allowance ih =>
    cases hadvance : state.advance p (finite 0) with
    | stop event result =>
      rw [heads_of_stop hadvance] at h
      rw [List.mem_singleton.1 h]
    | next event next =>
      rw [heads_of_next hadvance] at h
      rcases List.mem_cons.1 h with rfl | hrest
      · exact le_rfl
      · exact (ih (hstate.next hp hadvance) hrest).trans (level_of_advance hp hstate hadvance).1

/-- No head is above an earlier one, and all heads after one that makes progress are below it. -/
theorem pairwise_level (hp : p.Valid) (hstate : state.Proper p) (allowance : ℕ) :
    (state.heads p (finite 0) allowance).Pairwise fun head later ↦
      later.level p ≤ head.level p ∧
        (head.progresses p = true → later.level p < head.level p) := by
  induction allowance generalizing state with
  | zero => exact .nil
  | succ allowance ih =>
    cases hadvance : state.advance p (finite 0) with
    | stop event result =>
      rw [heads_of_stop hadvance]
      exact List.pairwise_singleton _ _
    | next event next =>
      rw [heads_of_next hadvance]
      have hnext := hstate.next hp hadvance
      obtain ⟨hle, hlt⟩ := level_of_advance hp hstate hadvance
      refine .cons (fun later hlater ↦ ?_) (ih hnext)
      have hlast := level_le_of_mem_heads hp hnext hlater
      refine ⟨hlast.trans hle, fun hprogress ↦ ?_⟩
      rw [progresses, event?_of_next hadvance] at hprogress
      exact hlast.trans_lt (hlt hprogress)

end State

/-! ## Counting -/

section Counting

variable {allowance : ℕ} {Label : Type} {selects : State ExtendedRational m n → Bool}
  {label : State ExtendedRational m n → Label}

theorem proper_of_mem_heads (hp : p.Valid) {head : State ExtendedRational m n}
    (h : head ∈ heads p (finite 0) allowance) : head.Proper p :=
  { regular_of_mem_heads hp.toAdmissible le_rfl (separated_zero p) h with
    bounded := bounded_of_mem_heads hp h }

/-- The selected states make progress, and the label of one determines its level. -/
structure Labelled (p : Program ExtendedRational m n) (selects : State ExtendedRational m n → Bool)
    (label : State ExtendedRational m n → Label) : Prop where
  progresses : ∀ head, selects head = true → head.progresses p = true
  level : ∀ head later : State ExtendedRational m n, head.Proper p → later.Proper p →
    selects head = true → selects later = true → label head = label later →
    head.level p = later.level p

/-- Selected heads have different labels, since the later one is on a lower level. -/
theorem Labelled.pairwise (h : Labelled p selects label) (hp : p.Valid) (allowance : ℕ) :
    ((heads p (finite 0) allowance).filter selects).Pairwise fun head later ↦
      label head ≠ label later := by
  refine ((State.pairwise_level hp (State.start_proper hp) allowance).filter selects).imp_of_mem ?_
  intro head later hhead hlater hbelow heq
  rw [List.mem_filter] at hhead hlater
  have hlevel := h.level head later (proper_of_mem_heads hp hhead.1)
    (proper_of_mem_heads hp hlater.1) hhead.2 hlater.2 heq
  exact (hbelow.2 (h.progresses head hhead.2)).ne hlevel.symm

/-- There are no more selected heads than labels. -/
theorem Labelled.countP_le [Fintype Label] (h : Labelled p selects label) (hp : p.Valid)
    (allowance : ℕ) : (heads p (finite 0) allowance).countP selects ≤ Fintype.card Label := by
  have hnodup : (((heads p (finite 0) allowance).filter selects).map label).Nodup :=
    List.pairwise_map.2 (h.pairwise hp allowance)
  have hlength := hnodup.length_le_card
  rwa [List.length_map, ← List.countP_eq_length_filter] at hlength

/-- How many events of a run have a property, counted over its heads. -/
theorem countP_events (holds : Event ExtendedRational m n → Bool) (allowance : ℕ) :
    (run p (finite 0) allowance).events.countP holds =
      (heads p (finite 0) allowance).countP fun head ↦
        (head.event? p (finite 0)).any holds := by
  unfold run heads
  rw [State.events_run, List.countP_filterMap]
  apply List.countP_congr
  intro head _
  cases head.event? p (finite 0) <;> rfl

end Counting

/-! ## Progress -/

/-- The event is a pivot of the phase with a positive step. -/
def Event.lengthens (phase : Phase) : Event ExtendedRational m n → Bool
  | .pivot _ current _ _ step => decide (current = phase ∧ 0 < step)
  | _ => false

theorem Event.progresses_of_lengthens {phase : Phase} {event : Event ExtendedRational m n}
    (h : event.lengthens phase = true) : event.progresses = true := by
  cases event with
  | pivot iteration current s leaving step =>
    exact decide_eq_true (of_decide_eq_true h).2
  | _ => cases h

/-- The iteration that a state begins takes a positive step in the phase. -/
def State.lengthens (p : Program ExtendedRational m n) (phase : Phase)
    (state : State ExtendedRational m n) : Bool :=
  (state.event? p (finite 0)).any (Event.lengthens phase)

section Runs

variable {phase : Phase}

/-- A pivot is reported in the phase of its head. -/
theorem State.phase_of_lengthens {state : State ExtendedRational m n}
    (h : state.lengthens p phase = true) : state.phase = phase := by
  unfold State.lengthens at h
  cases hadvance : state.advance p (finite 0) with
  | stop event result =>
    rw [event?_of_stop hadvance] at h
    cases ends_of_advance hadvance <;> cases h
  | next event next =>
    rw [event?_of_next hadvance] at h
    obtain ⟨rfl, -⟩ | ⟨s, rfl, -⟩ := event_of_advance hadvance
    · cases h
    · exact (of_decide_eq_true h).1

theorem State.progresses_of_lengthens {state : State ExtendedRational m n}
    (h : state.lengthens p phase = true) : state.progresses p = true := by
  obtain ⟨event, hevent, hlengthens⟩ := (Option.any_eq_true _ _).1 h
  exact (Option.any_eq_true _ _).2 ⟨event, hevent, Event.progresses_of_lengthens hlengthens⟩

theorem labelled_lengthens (hp : p.Valid) (phase : Phase) :
    Labelled p (State.lengthens p phase) fun head ↦ head.tableau.standings where
  progresses _ := State.progresses_of_lengthens
  level head later hhead hlater hselected hselected' heq := by
    refine State.level_eq_of_standings hp.toAdmissible hhead.toRegular hlater.toRegular ?_ heq
    rw [State.phase_of_lengthens hselected, State.phase_of_lengthens hselected']

theorem labelled_progresses (hp : p.Valid) :
    Labelled p (State.progresses p) fun head ↦ (head.phase, head.tableau.standings) where
  progresses _ h := h
  level head later hhead hlater _ _ heq := by
    obtain ⟨hphase, hstandings⟩ := Prod.mk.inj heq
    exact State.level_eq_of_standings hp.toAdmissible hhead.toRegular hlater.toRegular hphase
      hstandings

/-- Positive steps of one phase are taken from different standings. -/
theorem pairwise_standing (hp : p.Valid) (phase : Phase) (allowance : ℕ) :
    ((heads p (finite 0) allowance).filter (State.lengthens p phase)).Pairwise fun head later ↦
      head.tableau.standing ≠ later.tableau.standing := by
  refine ((labelled_lengthens hp phase).pairwise hp allowance).imp fun hne heq ↦ hne ?_
  rw [Tableau.standings, heq, Tableau.standings]

/-- A phase takes at most as many positive steps as there are standings. -/
theorem countP_lengthens_le (hp : p.Valid) (phase : Phase) (allowance : ℕ) :
    (run p (finite 0) allowance).events.countP (Event.lengthens phase) ≤ 3 ^ n * 2 ^ m := by
  rw [countP_events, ← card_standings]
  exact (labelled_lengthens hp phase).countP_le hp allowance

/-- A run makes progress at most twice as often, in its two phases. -/
theorem countP_progresses_le (hp : p.Valid) (allowance : ℕ) :
    (run p (finite 0) allowance).events.countP Event.progresses ≤ 2 * (3 ^ n * 2 ^ m) := by
  have hcard : Fintype.card (Phase × Standings m n) = 2 * (3 ^ n * 2 ^ m) := by
    rw [Fintype.card_prod, card_standings]
    rfl
  rw [countP_events, ← hcard]
  exact (labelled_progresses hp).countP_le hp allowance

end Runs

end Simplex

end MixedInteger
