import MixedInteger.Proofs.Program.Rational

/-!
# Models that state a program

Every program is stated by a model without an answer, whose lists are the vectors of the program.
The program of that model is the program again, and a model with an answer states the same program
as without.  So what is said about models can be said about programs: a valid program is one whose
model passes its own check, and to tighten a program is to tighten its model.
-/

namespace MixedInteger

open Arithmetic ExtendedRational

namespace Program

section Statement

variable {α : Type} {m n : ℕ}

/-- The model that states a program and has no answer. -/
def model (p : Program α m n) : Model α where
  m := m
  n := n
  A := p.A.toList.map Vector.toList
  b := p.b.toList
  c := p.c.toList
  lower := p.lower.toList
  upper := p.upper.toList
  integer := p.integer.toList
  x := none
  z := none
  status := .unsolved

theorem shaped_model (p : Program α m n) : p.model.Shaped where
  rows := by rw [model, List.length_map, Vector.length_toList]
  columns row hrow := by
    obtain ⟨row, -, rfl⟩ := List.mem_map.1 hrow
    exact row.length_toList
  b := p.b.length_toList
  c := p.c.length_toList
  lower := p.lower.length_toList
  upper := p.upper.length_toList
  integer := p.integer.length_toList

/-- A program is the program of its model. -/
@[simp]
theorem program_model (p : Program α m n) (shaped : p.model.Shaped) :
    p.model.program shaped = p := by
  obtain ⟨A, b, c, lower, upper, integer⟩ := p
  simp only [Model.program, model]
  congr 1
  apply Vector.ext
  intro i hi
  apply Vector.ext
  intro j hj
  simp

/-- The model of the program that a model states is the model without its answer. -/
@[simp]
theorem model_program {model : Model α} (shaped : model.Shaped) :
    (model.program shaped).model = model.cleared := by
  have hrows : (model.program shaped).A.toList.map Vector.toList = model.A := by
    apply List.ext_getElem
    · rw [List.length_map, Vector.length_toList, shaped.rows]
    · intro i _ _
      simp [Model.program]
  unfold Program.model Model.cleared
  rw [hrows]
  rfl

/-- Tightening a model leaves its answer behind. -/
theorem tightened?_answered [Arithmetic α] (model : Model α) (outcome : Outcome α n) (k : ℕ)
    (value : α) (side : Side) :
    (model.answered outcome).tightened? k value side = model.tightened? k value side := by
  cases outcome <;> cases side <;> rfl

/-- To tighten a program is to tighten its model. -/
theorem tightened?_model [Arithmetic α] (p : Program α m n) (k : Fin n) (value : α) (side : Side) :
    p.model.tightened? k value side = some (p.tighten k value side).model := by
  cases side with
  | down =>
    have hk : k.val < p.model.upper.length := by
      rw [p.shaped_model.upper]
      exact k.isLt
    unfold Model.tightened?
    dsimp only
    rw [if_pos hk]
    simp only [Model.cleared, model, tighten, Vector.toList_set]
  | up =>
    have hk : k.val < p.model.lower.length := by
      rw [p.shaped_model.lower]
      exact k.isLt
    unfold Model.tightened?
    dsimp only
    rw [if_pos hk]
    simp only [Model.cleared, model, tighten, Vector.toList_set]

end Statement

end Program

/-! ## Valid programs -/

/-- The program of a valid model is stated by the model without its answer. -/
theorem Model.model_of_validate {α : Type} [Arithmetic α] {model : Model α}
    {p : Program α model.m model.n} (h : model.validate = .ok p) : p.model = model.cleared := by
  obtain ⟨hdefect, rfl⟩ := validate_eq_ok_iff.1 h
  exact Program.model_program _

namespace Program

variable {m n : ℕ} {p : Program ExtendedRational m n}

theorem forall_mem_toList {α : Type} {values : Vector α n} {P : α → Prop}
    (h : ∀ j, P (values.get j)) : ∀ a ∈ values.toList, P a := by
  intro a ha
  obtain ⟨j, hj, rfl⟩ := Vector.getElem_of_mem (Vector.mem_toList_iff.1 ha)
  exact h ⟨j, hj⟩

/-- A valid program is stated by a model that passes its own check. -/
theorem Valid.validate_model (hp : p.Valid) : p.model.validate = .ok p := by
  have hdefect : p.model.defect? = none := by
    refine Model.defect?_eq_none_iff.2 ⟨p.shaped_model, ?_, ?_, ?_, ?_⟩
    · intro entries hentries
      obtain ⟨row, hrow, rfl⟩ := List.mem_map.1 hentries
      obtain ⟨i, hi, rfl⟩ := Vector.getElem_of_mem (Vector.mem_toList_iff.1 hrow)
      exact forall_mem_toList fun j ↦ isFinite_iff.2 ⟨_, hp.coefficient ⟨i, hi⟩ j⟩
    · exact forall_mem_toList fun i ↦ isFinite_iff.2 ⟨_, hp.rightSide i⟩
    · exact forall_mem_toList fun j ↦ isFinite_iff.2 ⟨_, hp.cost j⟩
    · intro j lower upper hlower hupper
      obtain ⟨hj, rfl⟩ := List.getElem?_eq_some_iff.1 hlower
      obtain ⟨_, rfl⟩ := List.getElem?_eq_some_iff.1 hupper
      have hn : j < n := by
        simpa [model] using hj
      exact Model.boundDefect?_eq_none_iff.2 ⟨hp.box ⟨j, hn⟩, hp.ordered ⟨j, hn⟩⟩
  rw [Model.validate_of_defect?_eq_none hdefect]
  exact congrArg Except.ok (p.program_model _)

end Program

end MixedInteger
