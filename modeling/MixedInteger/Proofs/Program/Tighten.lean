import MixedInteger.Proofs.Program.Ray
import MixedInteger.Simplex.Tableau

/-!
# Tightened programs

Tightening a program at a value replaces one bound by a rational number, so the rows, the costs and
all other bounds stay, and no bound becomes infinite.  The two parts of a program have no point in
common with a value strictly between them, but every point that is integral in the variable belongs
to one of the two.

A part lies in the box of the whole when the value was within bounds.  Whether its own bounds cross
is another matter: rounding a value may lead past the bound on the other side, unless that bound is
an integer.
-/

open Matrix

namespace MixedInteger

open Arithmetic ExtendedRational

namespace Program

/-! ## Bounds of a part -/

section Parts

variable {α : Type} [Arithmetic α] {m n : ℕ} {p : Program α m n} {k : Fin n} {value : α}

theorem tighten_upper_get (side : Side) (j : Fin n) :
    (p.tighten k value side).upper.get j =
      if side = .down ∧ j = k then Arithmetic.floor value else p.upper.get j := by
  cases side with
  | down => simp only [tighten, Simplex.vector_get_set, true_and]
  | up => simp [tighten]

theorem tighten_lower_get (side : Side) (j : Fin n) :
    (p.tighten k value side).lower.get j =
      if side = .up ∧ j = k then Arithmetic.ceil value else p.lower.get j := by
  cases side with
  | down => simp [tighten]
  | up => simp only [tighten, Simplex.vector_get_set, true_and]

@[simp]
theorem tighten_integer (side : Side) : (p.tighten k value side).integer = p.integer := by
  cases side <;> rfl

/-- A program is a part of itself when rounding the value up leads to its lower bound. -/
theorem tighten_up_eq_self (h : p.lower.get k = Arithmetic.ceil value) :
    p.tighten k value .up = p := by
  have hset : p.lower.set k (Arithmetic.ceil value) k.isLt = p.lower := by
    rw [← h]
    exact Vector.set_getElem_self k.isLt
  unfold tighten
  rw [hset]

end Parts

variable {m n : ℕ} {p q : Program ExtendedRational m n} {k : Fin n} {v : ℚ} {side : Side}

theorem Box.withUpper {lower upper : ExtendedRational} (h : Box lower upper) (u : ℚ) :
    Box lower (finite u) := by
  cases h with
  | between l => exact .between l u
  | above l => exact .between l u
  | below => exact .below u

theorem Box.withLower {lower upper : ExtendedRational} (h : Box lower upper) (l : ℚ) :
    Box (finite l) upper := by
  cases h with
  | between _ u => exact .between l u
  | above => exact .above l
  | below u => exact .between l u

/-! ## Descendants -/

/-- A program with the rows and costs of another one, whose bounds are infinite only where those
of the other one are. -/
structure Descends (q p : Program ExtendedRational m n) : Prop where
  A : q.A = p.A
  b : q.b = p.b
  c : q.c = p.c
  integer : q.integer = p.integer
  admissible : q.Admissible
  upper : ∀ j, q.upper.get j = positiveInfinity → p.upper.get j = positiveInfinity
  lower : ∀ j, q.lower.get j = negativeInfinity → p.lower.get j = negativeInfinity

theorem Admissible.descends (hp : p.Admissible) : p.Descends p where
  A := rfl
  b := rfl
  c := rfl
  integer := rfl
  admissible := hp
  upper _ := id
  lower _ := id

/-- Both parts of a program descend from whatever the program does. -/
theorem Descends.tighten (h : q.Descends p) (k : Fin n) (v : ℚ) (side : Side) :
    (q.tighten k (finite v) side).Descends p where
  A := by cases side <;> exact h.A
  b := by cases side <;> exact h.b
  c := by cases side <;> exact h.c
  integer := by rw [tighten_integer, h.integer]
  admissible :=
    { coefficient := by cases side <;> exact h.admissible.coefficient
      rightSide := by cases side <;> exact h.admissible.rightSide
      cost := by cases side <;> exact h.admissible.cost
      box := fun j ↦ by
        rw [tighten_lower_get, tighten_upper_get, floor_finite, ceil_finite]
        have hbox := h.admissible.box j
        split_ifs with hlower hupper hupper
        · exact (hbox.withLower _).withUpper _
        · exact hbox.withLower _
        · exact hbox.withUpper _
        · exact hbox }
  upper j hj := by
    rw [tighten_upper_get, floor_finite] at hj
    split_ifs at hj
    exact h.upper j hj
  lower j hj := by
    rw [tighten_lower_get, ceil_finite] at hj
    split_ifs at hj
    exact h.lower j hj

theorem Descends.matrix_eq (h : q.Descends p) : q.matrix = p.matrix := by
  funext i j
  rw [matrix, matrix, coefficient, coefficient, h.A]

theorem Descends.costs_eq (h : q.Descends p) : q.costs = p.costs := by
  funext j
  rw [costs, costs, h.c]

/-- A ray of a descendant is a ray of its ancestor. -/
theorem Descends.ray (h : q.Descends p) {d : Fin n → ℚ} (hd : q.Ray d) : p.Ray d where
  rows := by rw [← h.matrix_eq, hd.rows]
  rising j hj := h.upper j (hd.rising j hj)
  falling j hj := h.lower j (hd.falling j hj)

/-! ## Integral points -/

/-- Integral in every variable that must be. -/
def Integral (p : Program ExtendedRational m n) (y : Fin n → ℚ) : Prop :=
  ∀ j, p.integer.get j = true → ∃ i : ℤ, y j = i

/-- A point that is integral in the variable belongs to one of the two parts. -/
theorem Feasible.tighten {y : Fin n → ℚ} (hy : p.Feasible y) (v : ℚ) {i : ℤ} (hi : y k = i) :
    ∃ side, (p.tighten k (finite v) side).Feasible y := by
  rcases le_or_gt (i : ℚ) v with hle | hlt
  · refine ⟨.down, ⟨hy.rows, hy.lower, fun j ↦ ?_⟩⟩
    rw [tighten_upper_get, floor_finite]
    split_ifs with hj
    · rw [hj.2, hi, finite_le, Int.cast_le]
      exact Int.le_floor.2 hle
    · exact hy.upper j
  · refine ⟨.up, ⟨hy.rows, fun j ↦ ?_, hy.upper⟩⟩
    rw [tighten_lower_get, ceil_finite]
    split_ifs with hj
    · rw [hj.2, hi, finite_le, Int.cast_le]
      exact Int.ceil_le.2 hlt.le
    · exact hy.lower j

/-! ## Boxes -/

/-- The bounds of no variable cross. -/
def Ordered (p : Program ExtendedRational m n) : Prop :=
  ∀ j, p.lower.get j ≤ p.upper.get j

theorem Admissible.valid (hp : p.Admissible) (hordered : p.Ordered) : p.Valid :=
  { hp with ordered := hordered }

/-- A point within bounds. -/
structure Within (p : Program ExtendedRational m n) (y : Fin n → ℚ) : Prop where
  lower : ∀ j, p.lower.get j ≤ finite (y j)
  upper : ∀ j, finite (y j) ≤ p.upper.get j

/-- Every point within the bounds of one program is within those of the other. -/
structure Inside (q p : Program ExtendedRational m n) : Prop where
  lower : ∀ j, p.lower.get j ≤ q.lower.get j
  upper : ∀ j, q.upper.get j ≤ p.upper.get j

theorem Inside.within (h : q.Inside p) {y : Fin n → ℚ} (hy : q.Within y) : p.Within y where
  lower j := ExtendedRational.le_trans (h.lower j) (hy.lower j)
  upper j := ExtendedRational.le_trans (hy.upper j) (h.upper j)

theorem Box.defined {lower upper : ExtendedRational} (h : Box lower upper) :
    lower ≠ undefined ∧ upper ≠ undefined := by
  cases h <;> simp

theorem Admissible.inside (hp : p.Admissible) : p.Inside p where
  lower j := le_refl_of_defined (hp.box j).defined.1
  upper j := le_refl_of_defined (hp.box j).defined.2

/-- Both parts of a program lie inside it if the value is within bounds. -/
theorem Inside.tighten (h : q.Inside p) {x : Fin n → ℚ} (hx : q.Within x) (k : Fin n)
    (side : Side) : (q.tighten k (finite (x k)) side).Inside p := by
  constructor
  · intro j
    rw [tighten_lower_get, ceil_finite]
    split_ifs with hj
    · refine ExtendedRational.le_trans ((h.within hx).lower j) (finite_le.2 ?_)
      rw [hj.2]
      exact Int.le_ceil _
    · exact h.lower j
  · intro j
    rw [tighten_upper_get, floor_finite]
    split_ifs with hj
    · refine ExtendedRational.le_trans (finite_le.2 ?_) ((h.within hx).upper j)
      rw [hj.2]
      exact Int.floor_le _
    · exact h.upper j

/-- The finite bounds of every variable that must be integral are integers. -/
structure IntegralBounds (p : Program ExtendedRational m n) : Prop where
  lower : ∀ j q, p.integer.get j = true → p.lower.get j = finite q → ∃ i : ℤ, q = i
  upper : ∀ j q, p.integer.get j = true → p.upper.get j = finite q → ∃ i : ℤ, q = i

theorem IntegralBounds.tighten (h : p.IntegralBounds) (k : Fin n) (v : ℚ) (side : Side) :
    (p.tighten k (finite v) side).IntegralBounds := by
  constructor
  · intro j q hj hq
    rw [tighten_integer] at hj
    rw [tighten_lower_get, ceil_finite] at hq
    split_ifs at hq with hside
    · exact ⟨⌈v⌉, (finite.inj hq).symm⟩
    · exact h.lower j q hj hq
  · intro j q hj hq
    rw [tighten_integer] at hj
    rw [tighten_upper_get, floor_finite] at hq
    split_ifs at hq with hside
    · exact ⟨⌊v⌋, (finite.inj hq).symm⟩
    · exact h.upper j q hj hq

/-- Rounding up does not lead past an upper bound that is an integer. -/
theorem ceil_le_upper {upper : ExtendedRational} {x : ℚ} (hx : finite x ≤ upper)
    (hintegral : ∀ q, upper = finite q → ∃ i : ℤ, q = i) : finite ⌈x⌉ ≤ upper := by
  cases upper with
  | finite u =>
    obtain ⟨i, rfl⟩ := hintegral u rfl
    rw [finite_le, Int.cast_le]
    exact Int.ceil_le.2 (finite_le.1 hx)
  | positiveInfinity => exact finite_le_infinity _
  | undefined => cases hx
  | negativeInfinity => cases hx

/-- Rounding down does not lead past a lower bound that is an integer. -/
theorem lower_le_floor {lower : ExtendedRational} {x : ℚ} (hx : lower ≤ finite x)
    (hintegral : ∀ q, lower = finite q → ∃ i : ℤ, q = i) : lower ≤ finite ⌊x⌋ := by
  cases lower with
  | finite l =>
    obtain ⟨i, rfl⟩ := hintegral l rfl
    rw [finite_le, Int.cast_le]
    exact Int.le_floor.2 (finite_le.1 hx)
  | negativeInfinity => exact negativeInfinity_le_finite _
  | undefined => cases hx
  | positiveInfinity => cases hx

/-- Tightening integral bounds at a value between them does not make them cross. -/
theorem IntegralBounds.ordered_tighten (h : p.IntegralBounds) (hp : p.Ordered) {x : Fin n → ℚ}
    (hx : p.Within x) (hk : p.integer.get k = true) (side : Side) :
    (p.tighten k (finite (x k)) side).Ordered := by
  intro j
  rw [tighten_lower_get, tighten_upper_get, floor_finite, ceil_finite]
  cases side with
  | down =>
    simp only [reduceCtorEq, false_and, if_false, true_and]
    split_ifs with hj
    · rw [hj]
      exact lower_le_floor (hx.lower k) fun q ↦ h.lower k q hk
    · exact hp j
  | up =>
    simp only [reduceCtorEq, false_and, if_false, true_and]
    split_ifs with hj
    · rw [hj]
      exact ceil_le_upper (hx.upper k) fun q ↦ h.upper k q hk
    · exact hp j

end Program

end MixedInteger
