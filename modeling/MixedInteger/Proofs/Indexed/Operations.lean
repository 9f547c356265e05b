import MixedInteger.Proofs.Indexed.Tableau
import MixedInteger.Proofs.Program.Statement

/-!
# Operations in range

Each operation on a tableau of vectors is the checked operation on the lists of the tableau.  So the
checked operations have a value whenever they begin with the lists of some tableau, whatever numbers
these hold, and end with the lists of a tableau again.
-/

namespace MixedInteger

namespace Indexed

open Arithmetic Simplex

variable {α : Type} {m n : Nat}

/-! ## Lists of a tableau -/

/-- The number of a variable. -/
def code : Variable m n → Nat
  | .structural j => j.val
  | .artificial i => n + i.val

@[simp]
theorem code_structural (j : Fin n) : code (m := m) (.structural j) = j.val := rfl

@[simp]
theorem code_artificial (i : Fin m) : code (n := n) (.artificial i) = n + i.val := rfl

/-- One entry per variable, structural ones first. -/
def entries {β : Type} (values : PerVariable β m n) : List β :=
  values.structural.toList ++ values.artificial.toList

section Entries

variable {β : Type} (values : PerVariable β m n)

theorem read_entries (v : Variable m n) : (entries values)[code v]? = some (values.get v) := by
  unfold entries
  cases v with
  | structural j =>
    have hfirst : j.val < values.structural.toList.length := by
      rw [Vector.length_toList]
      exact j.isLt
    rw [code_structural, List.getElem?_append_left hfirst, read_toList]
    rfl
  | artificial i =>
    have hsecond : values.structural.toList.length ≤ n + i.val := by
      rw [Vector.length_toList]
      omega
    rw [code_artificial, List.getElem?_append_right hsecond, Vector.length_toList,
      Nat.add_sub_cancel_left, read_toList]
    rfl

theorem write_entries (v : Variable m n) (entry : β) :
    write (entries values) (code v) entry = some (entries (values.set v entry)) := by
  have hlength : code v < (entries values).length := by
    rw [entries, List.length_append, Vector.length_toList, Vector.length_toList]
    cases v with
    | structural j => exact Nat.lt_add_right m j.isLt
    | artificial i => exact Nat.add_lt_add_left i.isLt n
  rw [write, if_pos hlength]
  unfold entries PerVariable.set
  cases v with
  | structural j =>
    have hfirst : j.val < values.structural.toList.length := by
      rw [Vector.length_toList]
      exact j.isLt
    rw [code_structural, List.set_append_left _ _ hfirst, Vector.toList_set]
  | artificial i =>
    have hsecond : values.structural.toList.length ≤ n + i.val := by
      rw [Vector.length_toList]
      omega
    rw [code_artificial, List.set_append_right _ _ hsecond, Vector.length_toList,
      Nat.add_sub_cancel_left, Vector.toList_set]

end Entries

/-- The lists of a tableau, with what multipliers, reduced costs and column hold at the moment. -/
def lists (t : Simplex.Tableau α m n) (multipliers : Vector α m) (reducedCosts : Vector α n)
    (column : Vector α m) : Tableau α where
  n := n
  x := entries t.value
  status := entries t.standing
  basic := (t.basis.map code).toList
  inverse := table t.inverse
  basicCost := t.basicCost.toList
  multipliers := multipliers.toList
  reducedCosts := reducedCosts.toList
  column := column.toList

variable {t : Simplex.Tableau α m n} {multipliers column : Vector α m} {reducedCosts : Vector α n}

section Reading

@[simp]
theorem length_basic : (lists t multipliers reducedCosts column).basic.length = m :=
  Vector.length_toList ..

@[simp]
theorem length_column : (lists t multipliers reducedCosts column).column.length = m :=
  Vector.length_toList ..

theorem read_value (v : Variable m n) :
    (lists t multipliers reducedCosts column).x[code v]? = some (t.value.get v) :=
  read_entries t.value v

theorem read_standing (v : Variable m n) :
    (lists t multipliers reducedCosts column).status[code v]? = some (t.standing.get v) :=
  read_entries t.standing v

theorem read_structural_value (j : Fin n) :
    (lists t multipliers reducedCosts column).x[j.val]? = some (t.value.get (.structural j)) :=
  read_value (.structural j)

theorem read_structural_standing (j : Fin n) :
    (lists t multipliers reducedCosts column).status[j.val]? =
      some (t.standing.get (.structural j)) :=
  read_standing (.structural j)

theorem read_basic (i : Fin m) :
    (lists t multipliers reducedCosts column).basic[i.val]? = some (code (t.basis.get i)) := by
  rw [lists, read_toList, vector_get_map]

theorem read_inverse (i k : Fin m) :
    readEntry (lists t multipliers reducedCosts column).inverse i.val k.val =
      some ((t.inverse.get i).get k) :=
  readEntry_table t.inverse i k

theorem read_basicCost (i : Fin m) :
    (lists t multipliers reducedCosts column).basicCost[i.val]? = some (t.basicCost.get i) :=
  read_toList t.basicCost i

theorem read_reducedCost (j : Fin n) :
    (lists t multipliers reducedCosts column).reducedCosts[j.val]? = some (reducedCosts.get j) :=
  read_toList reducedCosts j

theorem read_column (i : Fin m) :
    (lists t multipliers reducedCosts column).column[i.val]? = some (column.get i) :=
  read_toList column i

variable (p : Program α m n)

theorem read_lower (j : Fin n) : p.model.lower[j.val]? = some (p.lower.get j) :=
  read_toList p.lower j

theorem read_upper (j : Fin n) : p.model.upper[j.val]? = some (p.upper.get j) :=
  read_toList p.upper j

theorem read_cost (j : Fin n) : p.model.c[j.val]? = some (p.c.get j) :=
  read_toList p.c j

theorem read_rightSide (i : Fin m) : p.model.b[i.val]? = some (p.b.get i) :=
  read_toList p.b i

theorem read_row (i : Fin m) : p.model.A[i.val]? = some (p.A.get i).toList :=
  read_table p.A i

theorem read_coefficient [Arithmetic α] (i : Fin m) (j : Fin n) :
    readEntry p.model.A i.val j.val = some (p.coefficient i j) :=
  readEntry_table p.A i j

end Reading

/-! ## Pricing -/

variable [Arithmetic α] {p : Program α m n}

theorem phaseCost_model (phase : Phase) (j : Fin n) :
    Tableau.phaseCost p.model phase j.val = some (Simplex.Tableau.phaseCost p phase j) := by
  cases phase with
  | one => rfl
  | two => exact read_cost p j

theorem priceRows_lists :
    (lists t multipliers reducedCosts column).priceRows = some t.multipliers.toList := by
  unfold Tableau.priceRows
  rw [length_basic]
  refine loop_fill multipliers fun i entries ↦ ?_
  rw [sum_eq (f := fun k ↦ t.basicCost.get k * (t.inverse.get k).get i)]
  · rfl
  · intro k
    simp only [read_basicCost, read_inverse, Option.bind_eq_bind, Option.bind_some]

theorem priceColumns_lists (phase : Phase) :
    (lists t multipliers reducedCosts column).priceColumns p.model phase t.multipliers.toList =
      some (t.reducedCosts p phase).toList := by
  unfold Tableau.priceColumns
  rw [length_basic]
  refine loop_fill reducedCosts fun j entries ↦ ?_
  rw [phaseCost_model, sum_eq (f := fun i ↦ t.multipliers.get i * p.coefficient i j)]
  · rfl
  · intro i
    simp only [read_toList, read_coefficient, Option.bind_eq_bind, Option.bind_some]

theorem price_lists (phase : Phase) :
    (lists t multipliers reducedCosts column).price p.model phase =
      some (lists t t.multipliers (t.reducedCosts p phase) column) := by
  unfold Tableau.price
  rw [priceRows_lists]
  simp only [Option.bind_eq_bind, Option.bind_some, priceColumns_lists]
  rfl

theorem entering_lists (tolerance : α) :
    (lists t multipliers reducedCosts column).entering tolerance n =
      some ((entering tolerance (t.score reducedCosts)).map Fin.val) := by
  unfold Tableau.entering entering
  refine congrArg (Option.map Prod.snd) (loop_eq_foldl
    (f := fun best j ↦
      if t.score reducedCosts j < best.1 then (t.score reducedCosts j, some j) else best)
    (fun best : α × Option (Fin n) ↦ (best.1, best.2.map Fin.val)) (fun j best ↦ ?_)
    (-tolerance, none))
  simp only [read_structural_standing, read_reducedCost, Option.bind_eq_bind, Option.bind_some]
  change some (if t.score reducedCosts j < best.1 then _ else _) = _
  by_cases hahead : t.score reducedCosts j < best.1
  · rw [if_pos hahead, if_pos hahead]
    rfl
  · rw [if_neg hahead, if_neg hahead]

/-! ## The end of a phase -/

omit [Arithmetic α] in
theorem zip_basic :
    (lists t multipliers reducedCosts column).basicCost.zip
        (lists t multipliers reducedCosts column).basic =
      List.ofFn fun i ↦ (t.basicCost.get i, code (t.basis.get i)) := by
  rw [lists, zip_toList]
  simp only [vector_get_map]

theorem basicObjective_lists :
    (lists t multipliers reducedCosts column).basicObjective = some t.basicObjective := by
  unfold Tableau.basicObjective
  rw [zip_basic]
  refine foldlM_ofFn (f := fun total i ↦ total + t.basicCost.get i * t.value.get (t.basis.get i))
    id (fun i total ↦ ?_) emptySum
  simp only [read_value, Option.bind_eq_bind, Option.bind_some, id]

theorem cost_model (v : Variable m n) :
    Tableau.cost p.model n (code v) = some (variableCost p .two v) := by
  unfold Tableau.cost
  cases v with
  | structural j =>
    rw [code_structural, if_pos j.isLt]
    exact read_cost p j
  | artificial k =>
    rw [code_artificial, if_neg (Nat.not_lt.2 (Nat.le_add_right n k.val))]
    rfl

theorem loadCosts_lists :
    (lists t multipliers reducedCosts column).loadCosts p.model =
      some (lists (t.withCosts p) multipliers reducedCosts column) := by
  unfold Tableau.loadCosts
  rw [zip_basic]
  refine (congrArg (Option.map _) (mapM_ofFn (g := (t.withCosts p).basicCost.get)
    fun i ↦ ?_)).trans ?_
  · rw [Simplex.Tableau.withCosts_basicCost_get]
    exact cost_model (t.basis.get i)
  · rw [Option.map_some, ← toList_eq_ofFn]
    rfl

/-! ## Columns and steps -/

theorem computeColumn_lists (s : Fin n) :
    (lists t multipliers reducedCosts column).computeColumn p.model s.val =
      some (lists t multipliers reducedCosts (t.column p s)) := by
  unfold Tableau.computeColumn
  rw [length_basic]
  refine congrArg (Option.map _) (loop_fill column fun i entries ↦ ?_)
  rw [sum_eq (f := fun k ↦ (t.inverse.get i).get k * p.coefficient k s)]
  · rfl
  · intro k
    simp only [read_inverse, read_coefficient, Option.bind_eq_bind, Option.bind_some]

theorem bounds_model (v : Variable m n) :
    Tableau.bounds p.model n (code v) =
      some (Simplex.Tableau.lowerBound p v, Simplex.Tableau.upperBound p v) := by
  unfold Tableau.bounds
  cases v with
  | structural j =>
    rw [code_structural, if_pos j.isLt, read_lower, read_upper]
    rfl
  | artificial k =>
    rw [code_artificial, if_neg (Nat.not_lt.2 (Nat.le_add_right n k.val))]
    rfl

/-- A limit with the number of its row. -/
def pair (limit : Limit α m) : α × Option Nat :=
  (limit.step, limit.leaving.map Fin.val)

theorem pair_shorten (limit : Limit α m) (i : Fin m) (ratio : α) :
    pair (limit.shorten i ratio) = Tableau.shorten (pair limit) i.val ratio := by
  unfold Limit.shorten Tableau.shorten
  exact apply_ite pair ..

theorem pair_meet (tolerance : α) (limit : Limit α m) (i : Fin m)
    (lower upper value rate opposite : α) :
    pair (limit.meet tolerance i lower upper value rate opposite) =
      Tableau.meet tolerance (pair limit) i.val lower upper value rate opposite := by
  unfold Limit.meet Tableau.meet
  simp only [apply_ite pair, pair_shorten]

theorem ratioTest_lists (tolerance : α) (s : Fin n) :
    (lists t multipliers reducedCosts column).ratioTest p.model tolerance s.val =
      some (pair (t.limit p tolerance s column)) := by
  unfold Tableau.ratioTest
  rw [read_structural_standing, read_lower, read_upper, length_column]
  simp only [Option.bind_eq_bind, Option.bind_some]
  unfold Simplex.Tableau.limit
  refine loop_eq_foldl pair (fun i limit ↦ ?_)
    { step := p.upper.get s - p.lower.get s, leaving := none }
  rw [read_column, read_basic, Option.bind_some, Option.bind_some, read_value, pair_meet]
  exact congrArg (Option.bind · _) (bounds_model (t.basis.get i))

theorem move_lists (s : Fin n) (step : α) :
    (lists t multipliers reducedCosts column).move s.val step =
      some (lists (t.move s step column) multipliers reducedCosts column) := by
  unfold Tableau.move
  rw [read_structural_standing, read_structural_value, length_basic]
  simp only [Option.bind_eq_bind, Option.bind_some]
  have hentering : write (lists t multipliers reducedCosts column).x s.val
      (t.value.get (.structural s) + (t.standing.get (.structural s)).sign * step) =
        some (entries (t.value.set (.structural s)
          (t.value.get (.structural s) + (t.standing.get (.structural s)).sign * step))) :=
    write_entries t.value (.structural s) _
  rw [hentering, Option.bind_some]
  refine congrArg (Option.map _) (loop_eq_foldl entries (fun i values ↦ ?_) _)
  rw [read_basic, read_column, Option.bind_some, Option.bind_some, read_entries]
  exact write_entries values (t.basis.get i) _

/-! ## Pivots -/

/-- The inverse after row `r` has been taken away from all others, as often as the column says. -/
def clearedRow (inverse : Vector (Vector α m) m) (r : Fin m) (column : Vector α m) (i : Fin m) :
    Vector α m :=
  if i = r then inverse.get r
  else Vector.ofFn fun k ↦
    (inverse.get i).get k - column.get i / column.get r * (inverse.get r).get k

theorem clearRows_lists (r : Fin m) :
    (lists t multipliers reducedCosts column).clearRows r.val (column.get r) =
      some (table (Vector.ofFn (clearedRow t.inverse r column))) := by
  unfold Tableau.clearRows
  rw [length_basic]
  let done (i : Nat) : Vector (Vector α m) m :=
    renewed i (clearedRow t.inverse r column) t.inverse.get
  have hstart : (lists t multipliers reducedCosts column).inverse = table (done 0) := by
    rw [show done 0 = t.inverse from renewed_zero _ t.inverse]
    rfl
  rw [hstart, ← renewed_all (clearedRow t.inverse r column) t.inverse.get]
  refine loop_eq (fun i ↦ table (done i)) fun i hi ↦ ?_
  have hrow : (done i).get ⟨i, hi⟩ = t.inverse.get ⟨i, hi⟩ :=
    (renewed_get ..).trans (if_neg (Nat.lt_irrefl i))
  have hleading : (done i).get r = t.inverse.get r := by
    refine (renewed_get ..).trans ?_
    rw [clearedRow, if_pos rfl, ite_self]
  have hnext : table (done (i + 1)) =
      table ((done i).set i (clearedRow t.inverse r column ⟨i, hi⟩) hi) :=
    congrArg table (renewed_set ⟨i, hi⟩ ..).symm
  rw [hnext]
  by_cases hir : i = r.val
  · obtain rfl : ⟨i, hi⟩ = r := Fin.ext hir
    rw [if_pos rfl, clearedRow, if_pos rfl, ← hleading]
    exact congrArg (fun rows ↦ some (table rows)) (Vector.set_getElem_self hi).symm
  · have hne : (⟨i, hi⟩ : Fin m) ≠ r := fun h ↦ hir (congrArg Fin.val h)
    rw [if_neg hir, read_column ⟨i, hi⟩]
    simp only [Option.bind_eq_bind, Option.bind_some]
    rw [clearedRow, if_neg hne]
    refine loop_fillRow _ (done i) ⟨i, hi⟩ fun k row hk ↦ ?_
    have hself : ((done i).set i row hi).get ⟨i, hi⟩ = row :=
      (vector_get_set _ ⟨i, hi⟩ ⟨i, hi⟩ row).trans (if_pos rfl)
    have hother : ((done i).set i row hi).get r = (done i).get r :=
      (vector_get_set _ ⟨i, hi⟩ r row).trans (if_neg hne.symm)
    rw [readEntry_table _ ⟨i, hi⟩ k, readEntry_table _ r k]
    simp only [Option.bind_some]
    rw [hself, hother, hk, hrow, hleading]

theorem scaleRow_lists (r : Fin m) :
    (lists t multipliers reducedCosts column).scaleRow r.val (column.get r)
        (table (Vector.ofFn (clearedRow t.inverse r column))) =
      some (table (Simplex.Tableau.eliminate t.inverse r column)) := by
  unfold Tableau.scaleRow
  rw [length_basic]
  refine (loop_fillRow (fun k ↦ (t.inverse.get r).get k / column.get r) _ r
    fun k row hk ↦ ?_).trans ?_
  · rw [readEntry_table _ r k, vector_get_set, if_pos rfl, hk, vector_get_ofFn, clearedRow,
      if_pos rfl]
    rfl
  · congr 2
    apply vector_eq_ofFn
    intro i
    rw [vector_get_set, vector_get_ofFn, clearedRow]
    split_ifs <;> rfl

omit [Arithmetic α] in
theorem write_basic (s : Fin n) (r : Fin m) :
    write (lists t multipliers reducedCosts column).basic r.val s.val =
      some ((t.basis.set r.val (.structural s) r.isLt).map code).toList := by
  rw [lists, write_toList, Vector.map_set]
  rfl

theorem pivot_lists (tolerance : α) (phase : Phase) (s : Fin n) (r : Fin m) :
    (lists t multipliers reducedCosts column).pivot p.model tolerance phase s.val r.val =
      some (lists (t.pivot p tolerance phase s r column) multipliers reducedCosts column) := by
  unfold Tableau.pivot
  have hentering : write (lists t multipliers reducedCosts column).status s.val .basic =
      some (entries (t.standing.set (.structural s) .basic)) :=
    write_entries t.standing (.structural s) .basic
  have hbounds : Tableau.bounds p.model (lists t multipliers reducedCosts column).n
      (code (t.basis.get r)) = _ := bounds_model (t.basis.get r)
  rw [read_column, read_basic, phaseCost_model, write_basic, hentering]
  simp only [Option.bind_eq_bind, Option.bind_some]
  rw [clearRows_lists, Option.bind_some, scaleRow_lists, Option.bind_some, hbounds,
    Option.bind_some, read_value, Option.bind_some, write_entries, Option.bind_some]
  exact congrArg (Option.bind · _) (write_toList t.basicCost r _)

omit [Arithmetic α] in
theorem flip_lists (s : Fin n) :
    (lists t multipliers reducedCosts column).flip s.val =
      some (lists (t.flip s) multipliers reducedCosts column) := by
  unfold Tableau.flip
  rw [read_structural_standing]
  have hopposite : write (lists t multipliers reducedCosts column).status s.val
      (Simplex.Tableau.oppositeStanding (t.standing.get (.structural s))) =
        some (entries (t.flip s).standing) :=
    write_entries t.standing (.structural s) _
  simp only [Option.bind_eq_bind, Option.bind_some]
  rw [hopposite]
  rfl

/-! ## The start -/

section Start

variable (p : Program α m n)

/-- The values while the first `j` structural variables have been placed. -/
def placedValues (j : Nat) : PerVariable α m n where
  structural := renewed j (startValue p) (Vector.replicate n 0).get
  artificial := Vector.replicate m 0

def placedStandings (j : Nat) : PerVariable Standing m n where
  structural := renewed j (startStanding p) (Vector.replicate n .basic).get
  artificial := Vector.replicate m .basic

omit [Arithmetic α] in
theorem entries_replicate {β : Type} (entry : β) :
    entries (m := m) (n := n) ⟨Vector.replicate n entry, Vector.replicate m entry⟩ =
      List.replicate (n + m) entry := by
  rw [entries, Vector.toList_replicate, Vector.toList_replicate, List.replicate_append_replicate]

theorem startValues_model :
    Tableau.startValues p.model =
      some (entries (placedValues p n), entries (placedStandings p n)) := by
  unfold Tableau.startValues
  have hvalues : entries (placedValues p 0) = List.replicate (n + m) 0 := by
    rw [placedValues, renewed_zero, entries_replicate]
  have hstandings : entries (placedStandings p 0) = List.replicate (n + m) .basic := by
    rw [placedStandings, renewed_zero, entries_replicate]
  change loop n _ (List.replicate (n + m) 0, List.replicate (n + m) Standing.basic) = _
  rw [← hvalues, ← hstandings]
  refine loop_eq (fun j ↦ (entries (placedValues p j), entries (placedStandings p j)))
    fun j hj ↦ ?_
  have hvalue : write (entries (placedValues p j)) j (startValue p ⟨j, hj⟩) =
      some (entries (placedValues p (j + 1))) := by
    refine (write_entries (placedValues p j) (.structural ⟨j, hj⟩) _).trans ?_
    rw [placedValues, placedValues, ← renewed_set ⟨j, hj⟩]
    rfl
  have hstanding : write (entries (placedStandings p j)) j (startStanding p ⟨j, hj⟩) =
      some (entries (placedStandings p (j + 1))) := by
    refine (write_entries (placedStandings p j) (.structural ⟨j, hj⟩) _).trans ?_
    rw [placedStandings, placedStandings, ← renewed_set ⟨j, hj⟩]
    rfl
  rw [read_lower p ⟨j, hj⟩, read_upper p ⟨j, hj⟩]
  simp only [Option.bind_eq_bind, Option.bind_some]
  unfold startValue at hvalue
  unfold startStanding at hstanding
  rw [hvalue, Option.bind_some, hstanding, Option.bind_some]

/-- The values while the first `i` artificial variables have been placed. -/
def leveledValues (i : Nat) : PerVariable α m n where
  structural := Vector.ofFn (startValue p)
  artificial := renewed i (fun i ↦ magnitude (residual p (Vector.ofFn (startValue p)) i))
    (Vector.replicate m 0).get

/-- A row of the first inverse. -/
def signRow (i : Fin m) : Vector α m :=
  Vector.ofFn fun k ↦
    if k = i then artificialSign (residual p (Vector.ofFn (startValue p)) i) else 0

def leveledRows (i : Nat) : Vector (Vector α m) m :=
  renewed i (signRow p) (Vector.replicate m (Vector.replicate m 0)).get

theorem startRows_model :
    Tableau.startRows p.model (entries (placedValues p n)) =
      some (entries (leveledValues p m), table (leveledRows p m)) := by
  unfold Tableau.startRows
  have hvalues : entries (placedValues p n) = entries (leveledValues p 0) := by
    rw [placedValues, leveledValues, renewed_all, renewed_zero]
  have hrows : List.replicate m (List.replicate m 0) = table (leveledRows p 0) := by
    rw [leveledRows, renewed_zero, table, Vector.toList_replicate, List.map_replicate,
      Vector.toList_replicate]
  change loop m _ (_, List.replicate m (List.replicate m 0)) = _
  rw [hvalues, hrows]
  refine loop_eq (fun i ↦ (entries (leveledValues p i), table (leveledRows p i)))
    fun i hi ↦ ?_
  have hslice : slice (entries (leveledValues p i)) p.model.n =
      some (Vector.ofFn (startValue p)).toList := slice_append ..
  have hresidual : p.b.get ⟨i, hi⟩ -
      dot (p.A.get ⟨i, hi⟩).toList (Vector.ofFn (startValue p)).toList =
        residual p (Vector.ofFn (startValue p)) ⟨i, hi⟩ := by
    rw [dot_toList]
    rfl
  have hvalue : write (entries (leveledValues p i)) (p.model.n + i)
      (magnitude (residual p (Vector.ofFn (startValue p)) ⟨i, hi⟩)) =
        some (entries (leveledValues p (i + 1))) := by
    refine (write_entries (leveledValues p i) (.artificial ⟨i, hi⟩) _).trans ?_
    rw [leveledValues, leveledValues, ← renewed_set ⟨i, hi⟩]
    rfl
  have hrow : writeEntry (table (leveledRows p i)) i i
      (artificialSign (residual p (Vector.ofFn (startValue p)) ⟨i, hi⟩)) =
        some (table (leveledRows p (i + 1))) := by
    refine (writeEntry_table (leveledRows p i) ⟨i, hi⟩ ⟨i, hi⟩ _).trans ?_
    have hold : (leveledRows p i).get ⟨i, hi⟩ = Vector.replicate m 0 := by
      rw [leveledRows, renewed_get, if_neg (Nat.lt_irrefl i), vector_get_replicate]
    have hnew : (Vector.replicate m 0).set i
        (artificialSign (residual p (Vector.ofFn (startValue p)) ⟨i, hi⟩)) hi =
          signRow p ⟨i, hi⟩ := by
      apply vector_eq_ofFn
      intro k
      rw [vector_get_set _ ⟨i, hi⟩, vector_get_replicate]
    rw [hold, hnew]
    exact congrArg (fun rows ↦ some (table rows)) (renewed_set ⟨i, hi⟩ ..)
  rw [read_row p ⟨i, hi⟩, read_rightSide p ⟨i, hi⟩, hslice]
  simp only [Option.bind_eq_bind, Option.bind_some]
  rw [hresidual, hrow, Option.bind_some, hvalue, Option.bind_some]

theorem leveledValues_all : leveledValues p m = (Simplex.Tableau.start p).value := by
  rw [leveledValues, renewed_all, Simplex.Tableau.start]
  congr 1
  refine (vector_eq_ofFn fun i ↦ ?_).symm
  rw [vector_get_map, vector_get_ofFn]

theorem placedStandings_all : placedStandings p n = (Simplex.Tableau.start p).standing := by
  rw [placedStandings, renewed_all]
  rfl

theorem leveledRows_all : leveledRows p m = (Simplex.Tableau.start p).inverse := by
  rw [leveledRows, renewed_all, Simplex.Tableau.start]
  refine (vector_eq_ofFn fun i ↦ ?_).symm
  rw [vector_get_ofFn, signRow]
  simp only [vector_get_ofFn]

theorem basis_start : (List.range m).map (n + ·) =
    ((Simplex.Tableau.start p).basis.map code).toList := by
  apply List.ext_getElem
  · simp
  · intro i _ _
    simp [Simplex.Tableau.start]

/-- A run begins with the lists of its first tableau. -/
theorem start_model : Tableau.start p.model =
    some (lists (Simplex.Tableau.start p) (Vector.replicate m 0) (Vector.replicate n 0)
      (Vector.replicate m 0)) := by
  unfold Tableau.start
  rw [startValues_model]
  simp only [Option.bind_eq_bind, Option.bind_some]
  rw [startRows_model]
  simp only [Option.bind_some]
  rw [leveledValues_all, placedStandings_all, leveledRows_all]
  unfold lists
  rw [← basis_start, Vector.toList_replicate, Vector.toList_replicate]
  rfl

end Start

end Indexed

end MixedInteger
