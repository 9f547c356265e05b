import MixedInteger.Model

/-!
# Valid models

A model is valid when its lists have the lengths its sizes promise, its data are finite, and every
variable has bounds that leave it a finite value to start from.  `Model.defect?` searches a model
for the first thing that is wrong with it, in a fixed order; a model without a defect has the shape
of a `Program`, which `Model.program` hands out.

The main statement of this module is `Model.defect?_eq_none_iff`.
-/

namespace MixedInteger

/-! ## Defects -/

/-- The lists of a model that hold one entry per row or per variable. -/
inductive Part where
  | rightHandSide
  | cost
  | lowerBound
  | upperBound
  | integrality
  deriving DecidableEq, Repr

/-- The name of a list in messages and in model files. -/
def Part.name : Part → String
  | rightHandSide => "b"
  | cost => "c"
  | lowerBound => "xLB"
  | upperBound => "xUB"
  | integrality => "xINT"

/-- A reason to reject a model. -/
inductive Defect (α : Type) where
  /-- The number of rows is not the promised one. -/
  | rowCount (actual expected : Nat)
  /-- A row has not one coefficient per variable. -/
  | rowLength (row actual expected : Nat)
  /-- A coefficient is not finite. -/
  | coefficient (row j : Nat)
  /-- A list has not one entry per row or per variable. -/
  | partLength (part : Part) (actual expected : Nat)
  /-- A right-hand side is not finite. -/
  | rightHandSide (row : Nat)
  /-- A cost is not finite. -/
  | cost (j : Nat)
  /-- A bound is undefined. -/
  | undefinedBound (j : Nat)
  /-- A bound is infinite on the wrong side. -/
  | unreachableBound (j : Nat) (lower upper : α)
  /-- The lower bound exceeds the upper one. -/
  | crossedBounds (j : Nat) (lower upper : α)
  /-- Neither bound is finite. -/
  | free (j : Nat)
  deriving DecidableEq, Repr

/-- The wording of a defect, where `number` writes a bound. -/
def Defect.message {α : Type} (number : α → String) : Defect α → String
  | rowCount actual expected => s!"A has {actual} rows, expected m = {expected}"
  | rowLength row actual expected =>
    s!"row {row} of A has {actual} columns, expected n = {expected}"
  | coefficient row j => s!"A[{row}][{j}] is not finite"
  | partLength part actual expected =>
    s!"{part.name} has length {actual}, expected {expected}"
  | rightHandSide row => s!"b[{row}] is not finite"
  | cost j => s!"c[{j}] is not finite"
  | undefinedBound j => s!"bounds of variable {j} are NaN"
  | unreachableBound j lower upper =>
    s!"variable {j} has bounds [{number lower}, {number upper}]"
  | crossedBounds j lower upper =>
    s!"variable {j} has xLB = {number lower} > xUB = {number upper}"
  | free j => s!"variable {j} is free; at least one bound must be finite"

namespace Model

variable {α : Type} [Arithmetic α]

open Arithmetic

/-! ## The search for a defect -/

/-- A row that is too short, too long or not finite. -/
def rowDefect? (n : Nat) (row : List α) (i : Nat) : Option (Defect α) :=
  if row.length ≠ n then some (.rowLength i row.length n)
  else (row.findIdx? fun a ↦ !isFinite a).map (.coefficient i)

/-- A list that has not the expected length. -/
def partDefect? (part : Part) (actual expected : Nat) : Option (Defect α) :=
  if actual ≠ expected then some (.partLength part actual expected) else none

/-- Bounds between which no finite starting value lies. -/
def boundDefect? (lower upper : α) (j : Nat) : Option (Defect α) :=
  if isUndefined lower || isUndefined upper then some (.undefinedBound j)
  else if infinity ≤ lower ∨ upper ≤ -infinity then some (.unreachableBound j lower upper)
  else if upper < lower then some (.crossedBounds j lower upper)
  else if isInfinite lower && isInfinite upper then some (.free j)
  else none

/-- The first defect of a model: the number of rows, then each row's length and coefficients, the
lengths of the other lists, right-hand sides, costs, and last the bounds of each variable. -/
def defect? (model : Model α) : Option (Defect α) :=
  (if model.A.length ≠ model.m then some (.rowCount model.A.length model.m) else none)
  |>.or (model.A.zipIdx.findSome? fun (row, i) ↦ rowDefect? model.n row i)
  |>.or (partDefect? .rightHandSide model.b.length model.m)
  |>.or (partDefect? .cost model.c.length model.n)
  |>.or (partDefect? .lowerBound model.lower.length model.n)
  |>.or (partDefect? .upperBound model.upper.length model.n)
  |>.or (partDefect? .integrality model.integer.length model.n)
  |>.or ((model.b.findIdx? fun a ↦ !isFinite a).map .rightHandSide)
  |>.or ((model.c.findIdx? fun a ↦ !isFinite a).map .cost)
  |>.or ((model.lower.zip model.upper).zipIdx.findSome? fun ((lower, upper), j) ↦
    boundDefect? lower upper j)

/-! ## The shape of a model without defect -/

/-- The lists of a model have the lengths that its sizes promise. -/
structure Shaped (model : Model α) : Prop where
  rows : model.A.length = model.m
  columns : ∀ row ∈ model.A, row.length = model.n
  b : model.b.length = model.m
  c : model.c.length = model.n
  lower : model.lower.length = model.n
  upper : model.upper.length = model.n
  integer : model.integer.length = model.n

omit [Arithmetic α] in
theorem partDefect?_eq_none {part : Part} {actual expected : Nat} :
    partDefect? (α := α) part actual expected = none ↔ actual = expected := by
  simp [partDefect?]

theorem rowDefect?_eq_none {n : Nat} {row : List α} {i : Nat} :
    rowDefect? n row i = none ↔ row.length = n ∧ ∀ a ∈ row, isFinite a = true := by
  unfold rowDefect?
  split <;> simp_all

theorem mem_zipIdx_of_mem {β : Type} {a : β} {l : List β} (h : a ∈ l) :
    ∃ i, (a, i) ∈ l.zipIdx := by
  obtain ⟨i, hi, rfl⟩ := List.getElem_of_mem h
  exact ⟨i, by simp [List.mk_mem_zipIdx_iff_getElem?]⟩

/-- A model has no defect if its lists fit together, its data are finite and the bounds of every
variable leave it a value to start from. -/
theorem defect?_eq_none_iff {model : Model α} : model.defect? = none ↔
    model.Shaped ∧ (∀ row ∈ model.A, ∀ a ∈ row, isFinite a = true) ∧
      (∀ a ∈ model.b, isFinite a = true) ∧ (∀ a ∈ model.c, isFinite a = true) ∧
      ∀ (j : Nat) (lower upper : α), model.lower[j]? = some lower → model.upper[j]? = some upper →
        boundDefect? lower upper j = none := by
  simp only [defect?, Option.or_eq_none_iff, partDefect?_eq_none, rowDefect?_eq_none,
    Option.map_eq_none_iff, List.findIdx?_eq_none_iff, List.findSome?_eq_none_iff,
    Bool.not_eq_false', ite_eq_right_iff, reduceCtorEq, imp_false, ne_eq, Decidable.not_not]
  constructor
  · rintro ⟨⟨⟨⟨⟨⟨⟨⟨⟨rows, entries⟩, b⟩, c⟩, lower⟩, upper⟩, integer⟩, hb⟩, hc⟩, hbounds⟩
    have hrow (row : List α) (hmem : row ∈ model.A) :
        row.length = model.n ∧ ∀ a ∈ row, isFinite a = true := by
      obtain ⟨i, hi⟩ := mem_zipIdx_of_mem hmem
      exact entries _ hi
    refine ⟨⟨rows, fun row hmem ↦ (hrow row hmem).1, b, c, lower, upper, integer⟩,
      fun row hmem ↦ (hrow row hmem).2, hb, hc, fun j l u hl hu ↦ ?_⟩
    exact hbounds ((l, u), j)
      (List.mem_zipIdx_iff_getElem?.2 (List.getElem?_zip_eq_some.2 ⟨hl, hu⟩))
  · rintro ⟨shaped, hA, hb, hc, hbounds⟩
    refine ⟨⟨⟨⟨⟨⟨⟨⟨⟨shaped.rows, ?_⟩, shaped.b⟩, shaped.c⟩, shaped.lower⟩, shaped.upper⟩,
      shaped.integer⟩, hb⟩, hc⟩, ?_⟩
    · rintro ⟨row, i⟩ hrow
      have hmem := List.fst_mem_of_mem_zipIdx hrow
      exact ⟨shaped.columns row hmem, hA row hmem⟩
    · rintro ⟨⟨l, u⟩, j⟩ hj
      obtain ⟨hl, hu⟩ := List.getElem?_zip_eq_some.1 (List.mem_zipIdx_iff_getElem?.1 hj)
      exact hbounds j l u hl hu

/-- A model without a defect fits together. -/
theorem shaped_of_defect?_eq_none {model : Model α} (h : model.defect? = none) :
    model.Shaped :=
  (defect?_eq_none_iff.1 h).1

/-- The program that a well-shaped model states. -/
def program (model : Model α) (shaped : model.Shaped) : Program α model.m model.n where
  A := ⟨(model.A.attach.map fun row ↦
      (⟨row.1.toArray, by simp [shaped.columns row.1 row.2]⟩ : Vector α model.n)).toArray,
    by simp [shaped.rows]⟩
  b := ⟨model.b.toArray, by simp [shaped.b]⟩
  c := ⟨model.c.toArray, by simp [shaped.c]⟩
  lower := ⟨model.lower.toArray, by simp [shaped.lower]⟩
  upper := ⟨model.upper.toArray, by simp [shaped.upper]⟩
  integer := ⟨model.integer.toArray, by simp [shaped.integer]⟩

/-- The program of a valid model, or the first reason to reject the model. -/
def validate (model : Model α) : Except (Defect α) (Program α model.m model.n) :=
  match h : model.defect? with
  | some defect => .error defect
  | none => .ok (model.program (shaped_of_defect?_eq_none h))

theorem validate_eq_ok_iff {model : Model α} {p : Program α model.m model.n} :
    model.validate = .ok p ↔
      ∃ h : model.defect? = none, model.program (shaped_of_defect?_eq_none h) = p := by
  unfold validate
  split
  · rename_i defect hdefect
    refine iff_of_false nofun ?_
    rintro ⟨hnone, -⟩
    cases hdefect.symm.trans hnone
  · rename_i hnone
    rw [Except.ok.injEq]
    exact ⟨fun h ↦ ⟨hnone, h⟩, fun ⟨_, h⟩ ↦ h⟩

theorem validate_of_defect?_eq_none {model : Model α} (h : model.defect? = none) :
    model.validate = .ok (model.program (shaped_of_defect?_eq_none h)) :=
  validate_eq_ok_iff.2 ⟨h, rfl⟩

omit [Arithmetic α] in
theorem getElem?_lower {model : Model α} (shaped : model.Shaped) (j : Fin model.n) :
    model.lower[j.val]? = some ((model.program shaped).lower.get j) :=
  List.getElem?_eq_getElem (by rw [shaped.lower]; exact j.isLt)

omit [Arithmetic α] in
theorem getElem?_upper {model : Model α} (shaped : model.Shaped) (j : Fin model.n) :
    model.upper[j.val]? = some ((model.program shaped).upper.get j) :=
  List.getElem?_eq_getElem (by rw [shaped.upper]; exact j.isLt)

end Model

end MixedInteger
