import Mathlib.Logic.Function.Basic
import MixedInteger.Proofs.Simplex.Heads

/-!
# Bookkeeping of the basis

A tableau says three times which variables are basic: by its basis, by the standings and by the
basic costs.  `Tableau.Consistent` says that the three agree, that no variable is basic in two
rows, and that an artificial variable is basic in its own row only.  Nothing here depends on the
kind of numbers, except that a basic variable must never be chosen to enter; whoever knows the
numbers supplies that.
-/

namespace MixedInteger

namespace Simplex

open Arithmetic

variable {α : Type} [Arithmetic α] {m n : Nat} {p : Program α m n} {tolerance : α}

/-! ## Vectors and folds -/

@[simp]
theorem vector_get_ofFn {β : Type} {k : Nat} (entry : Fin k → β) (i : Fin k) :
    (Vector.ofFn entry).get i = entry i := by
  change (Vector.ofFn entry)[i.val] = entry i
  simp

@[simp]
theorem vector_get_replicate {β : Type} {k : Nat} (entry : β) (i : Fin k) :
    (Vector.replicate k entry).get i = entry := by
  change (Vector.replicate k entry)[i.val] = entry
  simp

@[simp]
theorem vector_get_map {β γ : Type} {k : Nat} (f : β → γ) (entries : Vector β k) (i : Fin k) :
    (entries.map f).get i = f (entries.get i) := by
  change (entries.map f)[i.val] = f entries[i.val]
  simp

theorem vector_eq_ofFn {β : Type} {k : Nat} {entries : Vector β k} {entry : Fin k → β}
    (h : ∀ i, entries.get i = entry i) : entries = Vector.ofFn entry := by
  apply Vector.ext
  intro i hi
  rw [Vector.getElem_ofFn]
  exact h ⟨i, hi⟩

/-- What holds before the first index and is kept by each one holds after the last. -/
theorem foldl_induction {β : Type} {k : Nat} {f : β → Fin k → β} {init : β}
    (Holds : Nat → β → Prop) (hinit : Holds 0 init)
    (hstep : ∀ (i : Fin k) (b : β), Holds i.val b → Holds (i.val + 1) (f b i)) :
    Holds k (Fin.foldl k f init) := by
  induction k with
  | zero => exact hinit
  | succ k ih =>
    rw [Fin.foldl_succ_last]
    exact hstep (Fin.last k) _ (ih fun i b h ↦ hstep i.castSucc b h)

/-! ## Reading changed tableaux -/

/-- The cost of a variable in a phase. -/
def variableCost (p : Program α m n) (phase : Phase) : Variable m n → α
  | .structural j => Tableau.phaseCost p phase j
  | .artificial _ =>
    match phase with
    | .one => 1
    | .two => 0

namespace Tableau

variable {t : Tableau α m n} {phase : Phase}

@[simp]
theorem move_standing (s : Fin n) (step : α) (column : Vector α m) :
    (t.move s step column).standing = t.standing := rfl

@[simp]
theorem pivot_value (s : Fin n) (r : Fin m) (column : Vector α m) :
    (t.pivot p tolerance phase s r column).value = t.value := rfl

@[simp]
theorem pivot_inverse (s : Fin n) (r : Fin m) (column : Vector α m) :
    (t.pivot p tolerance phase s r column).inverse = eliminate t.inverse r column := rfl

theorem pivot_basis_get (s : Fin n) (r i : Fin m) (column : Vector α m) :
    (t.pivot p tolerance phase s r column).basis.get i =
      if i = r then .structural s else t.basis.get i :=
  vector_get_set _ _ _ _

theorem pivot_basicCost_get (s : Fin n) (r i : Fin m) (column : Vector α m) :
    (t.pivot p tolerance phase s r column).basicCost.get i =
      if i = r then phaseCost p phase s else t.basicCost.get i :=
  vector_get_set _ _ _ _

/-- The standing that the variable of row `r` takes when it leaves the basis. -/
def standingAfterLeaving (t : Tableau α m n) (p : Program α m n) (tolerance : α) (r : Fin m) :
    Standing :=
  leavingStanding tolerance (lowerBound p (t.basis.get r)) (upperBound p (t.basis.get r))
    (t.value.get (t.basis.get r))

theorem leavingStanding_ne_basic (tolerance lower upper value : α) :
    leavingStanding tolerance lower upper value ≠ .basic := by
  unfold leavingStanding
  split
  · simp
  split
  · simp
  split <;> simp

theorem pivot_standing_get (s : Fin n) (r : Fin m) (column : Vector α m) (v : Variable m n) :
    (t.pivot p tolerance phase s r column).standing.get v =
      if v = t.basis.get r then t.standingAfterLeaving p tolerance r
      else if v = .structural s then .basic
      else t.standing.get v := by
  unfold pivot
  rw [PerVariable.get_set, PerVariable.get_set]
  rfl

omit [Arithmetic α] in
@[simp]
theorem flip_value (s : Fin n) : (t.flip s).value = t.value := rfl

omit [Arithmetic α] in
@[simp]
theorem flip_basis (s : Fin n) : (t.flip s).basis = t.basis := rfl

/-- The bound at which a nonbasic variable stands after it has crossed its box. -/
def oppositeStanding : Standing → Standing
  | .atLower => .atUpper
  | _ => .atLower

omit [Arithmetic α] in
theorem flip_standing_get (s : Fin n) (v : Variable m n) :
    (t.flip s).standing.get v =
      if v = .structural s then oppositeStanding (t.standing.get v) else t.standing.get v := by
  unfold flip
  rw [PerVariable.get_set]
  split_ifs with h
  · rw [h]
    cases t.standing.get (.structural s) <;> rfl
  · rfl

theorem withCosts_basicCost_get (i : Fin m) :
    (t.withCosts p).basicCost.get i = variableCost p .two (t.basis.get i) := by
  unfold withCosts
  rw [vector_get_map]
  cases t.basis.get i <;> rfl

/-! ## Consistent tableaux -/

/-- Basis, standings and basic costs of a tableau say the same. -/
structure Consistent (t : Tableau α m n) (p : Program α m n) (phase : Phase) : Prop where
  /-- No variable is basic in two rows. -/
  injective : Function.Injective t.basis.get
  /-- The basic variables are those of the basis. -/
  basic_iff : ∀ v, t.standing.get v = .basic ↔ ∃ i, t.basis.get i = v
  /-- An artificial variable is basic in its own row only. -/
  own_row : ∀ i k, t.basis.get i = .artificial k → i = k
  /-- Basic costs are the costs of the basic variables in the phase. -/
  cost : ∀ i, t.basicCost.get i = variableCost p phase (t.basis.get i)

theorem start_consistent (p : Program α m n) : (start p).Consistent p .one where
  injective i k h := by simpa [start] using h
  basic_iff v := by
    cases v with
    | structural j =>
      simp only [start, PerVariable.get, vector_get_ofFn, startStanding, reduceCtorEq,
        exists_false, iff_false]
      split_ifs <;> simp
    | artificial i => simp [start, PerVariable.get]
  own_row i k h := by simpa [start] using h
  cost i := by simp [start, variableCost]

namespace Consistent

theorem not_basic_of_ne (h : t.Consistent p phase) {v : Variable m n}
    (hv : t.standing.get v ≠ .basic) (i : Fin m) : t.basis.get i ≠ v := fun hi ↦
  hv ((h.basic_iff v).2 ⟨i, hi⟩)

theorem basic (h : t.Consistent p phase) (i : Fin m) :
    t.standing.get (t.basis.get i) = .basic :=
  (h.basic_iff _).2 ⟨i, rfl⟩

theorem move (h : t.Consistent p phase) (s : Fin n) (step : α) (column : Vector α m) :
    (t.move s step column).Consistent p phase where
  injective := h.injective
  basic_iff := h.basic_iff
  own_row := h.own_row
  cost := h.cost

theorem pivot (h : t.Consistent p phase) {s : Fin n}
    (hs : t.standing.get (.structural s) ≠ .basic) (r : Fin m) (column : Vector α m) :
    (t.pivot p tolerance phase s r column).Consistent p phase where
  injective i k hik := by
    rw [pivot_basis_get, pivot_basis_get] at hik
    split_ifs at hik with hi hk hk
    · rw [hi, hk]
    · exact absurd hik.symm (h.not_basic_of_ne hs k)
    · exact absurd hik (h.not_basic_of_ne hs i)
    · exact h.injective hik
  basic_iff v := by
    rw [pivot_standing_get]
    simp only [pivot_basis_get]
    split_ifs with hleaving hentering
    · -- the leaving variable occurs in no other row, and it is not the entering one
      refine iff_of_false (leavingStanding_ne_basic _ _ _ _) ?_
      rintro ⟨i, hi⟩
      split_ifs at hi with hir
      · exact h.not_basic_of_ne hs r (hleaving.symm.trans hi.symm)
      · exact hir (h.injective (hi.trans hleaving))
    · exact iff_of_true rfl ⟨r, by rw [if_pos rfl, hentering]⟩
    · rw [h.basic_iff]
      constructor
      · rintro ⟨i, rfl⟩
        have hir : i ≠ r := fun hir ↦ hleaving (by rw [hir])
        exact ⟨i, by rw [if_neg hir]⟩
      · rintro ⟨i, hi⟩
        split_ifs at hi with hir
        · exact absurd hi.symm hentering
        · exact ⟨i, hi⟩
  own_row i k hik := by
    rw [pivot_basis_get] at hik
    split_ifs at hik with hir
    exact h.own_row i k hik
  cost i := by
    rw [pivot_basis_get, pivot_basicCost_get]
    split_ifs with hir
    · rfl
    · exact h.cost i

theorem flip (h : t.Consistent p phase) {s : Fin n}
    (hs : t.standing.get (.structural s) ≠ .basic) : (t.flip s).Consistent p phase where
  injective := h.injective
  basic_iff v := by
    rw [flip_standing_get, flip_basis]
    split_ifs with hv
    · refine iff_of_false ?_ ?_
      · cases t.standing.get v <;> simp [oppositeStanding]
      · rintro ⟨i, hi⟩
        exact h.not_basic_of_ne hs i (hi.trans hv)
    · exact h.basic_iff v
  own_row := h.own_row
  cost := h.cost

theorem withCosts (h : t.Consistent p phase) : (t.withCosts p).Consistent p .two where
  injective := h.injective
  basic_iff := h.basic_iff
  own_row := h.own_row
  cost := withCosts_basicCost_get

end Consistent

end Tableau

/-! ## Runs -/

/-- No basic variable is ever chosen to enter. -/
def EntersNonbasic (p : Program α m n) (tolerance : α) : Prop :=
  ∀ (state : State α m n) (s : Fin n), state.entering? p tolerance = some s →
    state.tableau.standing.get (.structural s) ≠ .basic

theorem State.Continues.consistent {state next : State α m n}
    (hnonbasic : EntersNonbasic p tolerance) (h : state.Continues p tolerance next)
    (hstate : state.tableau.Consistent p state.phase) : next.tableau.Consistent p next.phase := by
  cases h with
  | secondPhase => exact hstate.withCosts
  | pivot s r hentering => exact (hstate.move s _ _).pivot (hnonbasic state s hentering) r _
  | flip s hentering => exact (hstate.move s _ _).flip (hnonbasic state s hentering)

/-- The bookkeeping is consistent at every head of a run. -/
theorem consistent_of_mem_heads (hnonbasic : EntersNonbasic p tolerance) {allowance : Nat}
    {head : State α m n} (hhead : head ∈ heads p tolerance allowance) :
    head.tableau.Consistent p head.phase :=
  State.heads_induction (fun state ↦ state.tableau.Consistent p state.phase)
    (fun _ _ hstate hnext ↦ hnext.consistent hnonbasic hstate) (Tableau.start_consistent p)
    allowance head hhead

end Simplex

end MixedInteger
