import MixedInteger.Proofs.Binary64
import MixedInteger.Proofs.Indexed.Operations
import MixedInteger.Proofs.Simplex.Escape

/-!
# Records of the basis in floating point

A state names the basic variables by their numbers, structural ones first.  Whatever the numbers of
a run are, its records about the basis agree at every head: the list of basic variables, the
standings, the rows of artificial variables and the basic costs.  Overflow and invalid operations
do not matter.  All that keeps a basic variable from entering is that its score is a product with
zero; such a product is a zero or undefined, and neither is below the negated tolerance.
-/

namespace MixedInteger

open Arithmetic

/-! ## Numbers of variables -/

namespace Indexed

variable {m n : ℕ}

theorem code_injective : Function.Injective (code (m := m) (n := n)) := by
  intro v w h
  cases v with
  | structural j => cases w with
    | structural k => exact congrArg Simplex.Variable.structural (Fin.ext h)
    | artificial k =>
      have hj := j.isLt
      rw [code_structural, code_artificial] at h
      omega
  | artificial i => cases w with
    | structural k =>
      have hk := k.isLt
      rw [code_structural, code_artificial] at h
      omega
    | artificial k =>
      exact congrArg Simplex.Variable.artificial (Fin.ext (Nat.add_left_cancel h))

theorem code_lt (v : Simplex.Variable m n) : code v < n + m := by
  cases v with
  | structural j => exact Nat.lt_add_right m j.isLt
  | artificial i => exact Nat.add_lt_add_left i.isLt n

/-- Every number below the number of variables belongs to one of them. -/
theorem exists_code {k : ℕ} (hk : k < n + m) : ∃ v : Simplex.Variable m n, code v = k := by
  by_cases h : k < n
  · exact ⟨.structural ⟨k, h⟩, rfl⟩
  · exact ⟨.artificial ⟨k - n, by omega⟩, Nat.add_sub_cancel' (Nat.le_of_not_lt h)⟩

theorem length_entries {β : Type} (values : Simplex.PerVariable β m n) :
    (entries values).length = n + m := by
  rw [entries, List.length_append, Vector.length_toList, Vector.length_toList]

end Indexed

namespace Simplex

variable {α : Type} [Arithmetic α] {m n : ℕ} {p : Program α m n} {tolerance : α}

/-! ## Records -/

/-- The numbers of the basic variables, row by row. -/
def Tableau.basicNumbers (t : Tableau α m n) : List ℕ :=
  (t.basis.map Indexed.code).toList

omit [Arithmetic α] in
theorem Tableau.basicNumbers_eq (t : Tableau α m n) :
    t.basicNumbers = List.ofFn fun i ↦ Indexed.code (t.basis.get i) := by
  unfold basicNumbers
  rw [Indexed.toList_eq_ofFn]
  apply congrArg List.ofFn
  funext i
  exact vector_get_map _ _ _

omit [Arithmetic α] in
theorem Tableau.mem_basicNumbers {t : Tableau α m n} {v : Variable m n} :
    Indexed.code v ∈ t.basicNumbers ↔ ∃ i, t.basis.get i = v := by
  rw [t.basicNumbers_eq, List.mem_ofFn]
  exact exists_congr fun i ↦ Indexed.code_injective.eq_iff

/-- The records of a state about its basis say the same. -/
structure State.KeepsRecords (p : Program α m n) (state : State α m n) : Prop where
  /-- There is one basic variable per row. -/
  length : state.tableau.basicNumbers.length = m
  /-- No variable is basic in two rows. -/
  nodup : state.tableau.basicNumbers.Nodup
  /-- Only variables are basic. -/
  lt : ∀ k ∈ state.tableau.basicNumbers, k < n + m
  /-- The standings tell which variables are basic. -/
  standing : ∀ k, (Indexed.entries state.tableau.standing)[k]? = some .basic ↔
    k ∈ state.tableau.basicNumbers
  /-- An artificial variable is basic in its own row only. -/
  own_row : ∀ i k, state.tableau.basicNumbers[i]? = some (n + k) → i = k
  /-- Basic costs are the costs of the basic variables in the phase. -/
  cost : ∀ i, state.tableau.basicCost.get i =
    variableCost p state.phase (state.tableau.basis.get i)

namespace Tableau.Consistent

variable {state : State α m n}

/-- A number is that of a basic variable if the standings say so. -/
theorem standing_iff (h : state.tableau.Consistent p state.phase) (k : ℕ) :
    (Indexed.entries state.tableau.standing)[k]? = some .basic ↔
      k ∈ state.tableau.basicNumbers := by
  by_cases hk : k < n + m
  · obtain ⟨v, rfl⟩ := Indexed.exists_code hk
    rw [Indexed.read_entries, Option.some.injEq, mem_basicNumbers]
    exact h.basic_iff v
  · have hnone : (Indexed.entries state.tableau.standing)[k]? = none := by
      apply List.getElem?_eq_none
      rw [Indexed.length_entries]
      exact Nat.le_of_not_lt hk
    rw [hnone, state.tableau.basicNumbers_eq, List.mem_ofFn]
    refine iff_of_false nofun ?_
    rintro ⟨i, rfl⟩
    exact hk (Indexed.code_lt _)

theorem keepsRecords (h : state.tableau.Consistent p state.phase) : state.KeepsRecords p where
  length := Vector.length_toList
  nodup := by
    rw [basicNumbers_eq, List.nodup_ofFn]
    exact Indexed.code_injective.comp h.injective
  lt k hk := by
    rw [basicNumbers_eq, List.mem_ofFn] at hk
    obtain ⟨i, rfl⟩ := hk
    exact Indexed.code_lt _
  standing := h.standing_iff
  own_row i k hik := by
    rw [basicNumbers_eq, List.getElem?_ofFn] at hik
    split_ifs at hik with hi
    have hlt := Indexed.code_lt (state.tableau.basis.get ⟨i, hi⟩)
    rw [Option.some.inj hik] at hlt
    have hbasic : state.tableau.basis.get ⟨i, hi⟩ =
        .artificial ⟨k, Nat.lt_of_add_lt_add_left hlt⟩ :=
      Indexed.code_injective (Option.some.inj hik)
    exact congrArg Fin.val (h.own_row _ _ hbasic)
  cost := h.cost

end Tableau.Consistent

/-! ## Artificial variables in the basis -/

/-- Later heads have no more artificial variables in the basis. -/
theorem basicArtificials_subset {allowance k l : ℕ} {head later : State α m n} (hle : k ≤ l)
    (hhead : (heads p tolerance allowance)[k]? = some head)
    (hlater : (heads p tolerance allowance)[l]? = some later) :
    later.tableau.basicArtificials ⊆ head.tableau.basicArtificials := by
  obtain ⟨rest, hmem⟩ := State.mem_heads_of_le hle hhead hlater
  intro i hi
  rw [Tableau.basicArtificials, Finset.mem_filter] at hi ⊢
  exact ⟨hi.1, State.artificial_basic_of_mem_heads hmem i hi.2⟩

/-! ## Floating-point runs -/

/-- No basic variable enters in floating point, be its reduced cost infinite or undefined. -/
theorem entersNonbasic_binary64 (p : Program Float m n) {tolerance : Float}
    (htolerance : 0 ≤ tolerance) : EntersNonbasic p tolerance :=
  entersNonbasic_of_not_lt p (fun _ _ _ ↦ Binary64.lt_trans) (Binary64.not_zero_mul_lt htolerance)

/-- In floating point the records of the basis agree at every head, and an artificial variable
that has left the basis stays outside. -/
theorem records_agree (p : Program Float m n) {tolerance : Float} (htolerance : 0 ≤ tolerance)
    (allowance : ℕ) :
    (∀ head ∈ heads p tolerance allowance, head.KeepsRecords p) ∧
    ∀ (k l : ℕ) (head later : State Float m n), k ≤ l →
      (heads p tolerance allowance)[k]? = some head →
      (heads p tolerance allowance)[l]? = some later →
      later.tableau.basicArtificials ⊆ head.tableau.basicArtificials := by
  constructor
  · intro head hhead
    apply Tableau.Consistent.keepsRecords
    exact consistent_of_mem_heads (entersNonbasic_binary64 p htolerance) hhead
  · intro k l head later
    exact basicArtificials_subset

/-- Coefficients whose sums overflow. -/
def hugeProgram : Program Float 3 2 where
  A := Vector.replicate 3 (Vector.replicate 2 1e308)
  b := Vector.replicate 3 1e308
  c := #v[1, -1]
  lower := Vector.replicate 2 0
  upper := Vector.replicate 2 infinity
  integer := Vector.replicate 2 false

/-- At the second head the reduced cost of the variable that has just entered is undefined, and yet
the run ends with another variable in its place. -/
theorem hugeProgram_records :
    (0 : Float) ≤ 1e-9 ∧
      ((heads hugeProgram 1e-9 9).map fun head ↦ (head.phase, head.tableau.basicNumbers)) =
        [(.one, [2, 3, 4]), (.one, [2, 3, 0]), (.two, [2, 3, 0]), (.two, [2, 3, 1])] ∧
      ((heads hugeProgram 1e-9 9)[1]?.map fun head ↦
        (head.tableau.reducedCosts hugeProgram head.phase).toList.map isUndefined) =
        some [true, true] ∧
      (∀ head ∈ heads hugeProgram 1e-9 9, head.KeepsRecords hugeProgram) ∧
      ∀ (k l : ℕ) (head later : State Float 3 2), k ≤ l →
        (heads hugeProgram 1e-9 9)[k]? = some head →
        (heads hugeProgram 1e-9 9)[l]? = some later →
        later.tableau.basicArtificials ⊆ head.tableau.basicArtificials := by
  have htolerance : (0 : Float) ≤ 1e-9 := by decide
  refine ⟨htolerance, ?_, ?_, records_agree hugeProgram htolerance 9⟩
  · decide +kernel
  · decide +kernel

end Simplex

end MixedInteger
