import MixedInteger.Proofs.Simplex.Bookkeeping

/-!
# Lists with checked accesses

A vector of known length cannot be read or written outside.  A list can, and a program on lists has
to see to it that each of its indices is in range.  Here every access to a list is checked, and one
that is not in range ends the whole computation without a value.  Loops run through the indices
below a number and pass their state along.  A loop whose accesses are all in range does what a fold
on vectors does.
-/

namespace MixedInteger

namespace Indexed

open Simplex

variable {β γ σ τ : Type} {k m : Nat}

/-! ## Accesses -/

/-- Replaces the entry at an index in range. -/
def write (entries : List β) (i : Nat) (entry : β) : Option (List β) :=
  if i < entries.length then some (entries.set i entry) else none

/-- An entry of a list of rows, both of whose indices must be in range. -/
def readEntry (rows : List (List β)) (i j : Nat) : Option β := do
  let row ← rows[i]?
  row[j]?

/-- Replaces an entry of a list of rows. -/
def writeEntry (rows : List (List β)) (i j : Nat) (entry : β) : Option (List (List β)) := do
  let row ← rows[i]?
  let row ← write row j entry
  write rows i row

/-- The first entries of a list that has as many. -/
def slice (entries : List β) (k : Nat) : Option (List β) :=
  if k ≤ entries.length then some (entries.take k) else none

/-- Runs through the indices below `k`. -/
def loop (k : Nat) (body : σ → Nat → Option σ) (init : σ) : Option σ :=
  (List.range k).foldlM body init

/-- An ordered sum whose terms are computed with checked accesses. -/
def sum {α : Type} [Arithmetic α] (k : Nat) (term : Nat → Option α) : Option α :=
  loop k (fun total i ↦ do
    let a ← term i
    some (total + a)) Arithmetic.emptySum

/-! ## Accesses in range -/

theorem read_toList (entries : Vector β k) (i : Fin k) :
    entries.toList[i.val]? = some (entries.get i) := by
  rw [Vector.getElem?_toList, Vector.getElem?_eq_getElem i.isLt]
  rfl

theorem write_toList (entries : Vector β k) (i : Fin k) (entry : β) :
    write entries.toList i.val entry = some (entries.set i.val entry i.isLt).toList := by
  rw [write, if_pos (by rw [Vector.length_toList]; exact i.isLt), Vector.toList_set]

theorem slice_append (entries : Vector β k) (rest : List β) :
    slice (entries.toList ++ rest) k = some entries.toList := by
  rw [slice, if_pos (by rw [List.length_append, Vector.length_toList]; omega),
    List.take_left' (Vector.length_toList ..)]

/-- The rows of a matrix. -/
def table (rows : Vector (Vector β k) m) : List (List β) :=
  rows.toList.map Vector.toList

theorem read_table (rows : Vector (Vector β k) m) (i : Fin m) :
    (table rows)[i.val]? = some (rows.get i).toList := by
  rw [table, List.getElem?_map, read_toList]
  rfl

theorem readEntry_table (rows : Vector (Vector β k) m) (i : Fin m) (j : Fin k) :
    readEntry (table rows) i.val j.val = some ((rows.get i).get j) := by
  unfold readEntry
  rw [read_table]
  exact read_toList (rows.get i) j

theorem writeEntry_table (rows : Vector (Vector β k) m) (i : Fin m) (j : Fin k) (entry : β) :
    writeEntry (table rows) i.val j.val entry =
      some (table (rows.set i.val ((rows.get i).set j.val entry j.isLt) i.isLt)) := by
  unfold writeEntry
  rw [read_table]
  change (write (rows.get i).toList j.val entry).bind (write (table rows) i.val) = _
  rw [write_toList]
  change write (table rows) i.val ((rows.get i).set j.val entry j.isLt).toList = _
  rw [write, if_pos (by rw [table, List.length_map, Vector.length_toList]; exact i.isLt)]
  simp only [table, Vector.toList_set, List.map_set]

/-! ## Loops in range -/

theorem loop_succ (k : Nat) (body : σ → Nat → Option σ) (init : σ) :
    loop (k + 1) body init = (loop k body init).bind fun state ↦ body state k := by
  rw [loop, List.range_succ, List.foldlM_append]
  change (loop k body init).bind _ = _
  congr 1
  funext state
  rw [List.foldlM_cons]
  cases body state k <;> rfl

/-- A loop passes through the states that its body leads from one index to the next. -/
theorem loop_eq {body : σ → Nat → Option σ} (state : Nat → σ)
    (h : ∀ i, i < k → body (state i) i = some (state (i + 1))) :
    loop k body (state 0) = some (state k) := by
  induction k with
  | zero => rfl
  | succ k ih =>
    rw [loop_succ, ih fun i hi ↦ h i (Nat.lt_succ_of_lt hi)]
    exact h k (Nat.lt_succ_self k)

/-- A loop that does at every index what a function does on the states it represents. -/
theorem loop_eq_foldl {body : σ → Nat → Option σ} {f : τ → Fin k → τ} (represent : τ → σ)
    (h : ∀ (i : Fin k) (state : τ), body (represent state) i.val = some (represent (f state i)))
    (init : τ) : loop k body (represent init) = some (represent (Fin.foldl k f init)) := by
  induction k with
  | zero => rfl
  | succ k ih =>
    rw [loop_succ, Fin.foldl_succ_last, ih fun i state ↦ h i.castSucc state]
    exact h (Fin.last k) _

theorem sum_eq {α : Type} [Arithmetic α] {term : Nat → Option α} {f : Fin k → α}
    (h : ∀ i : Fin k, term i.val = some (f i)) : sum k term = some (Arithmetic.sum f) := by
  refine loop_eq_foldl id (fun i total ↦ ?_) Arithmetic.emptySum
  rw [h]
  rfl

/-! ## Lists of vectors in range -/

theorem toList_eq_ofFn (entries : Vector β k) : entries.toList = List.ofFn entries.get := by
  have hentries : entries = Vector.ofFn entries.get := vector_eq_ofFn fun _ ↦ rfl
  rw [← Vector.toList_ofFn, ← hentries]

theorem zip_toList (entries : Vector β k) (others : Vector γ k) :
    entries.toList.zip others.toList = List.ofFn fun i ↦ (entries.get i, others.get i) := by
  apply List.ext_getElem
  · simp
  · intro i hi hi'
    simp only [List.getElem_zip, List.getElem_ofFn]
    rfl

/-- Goes through a list as a fold goes through the indices of its entries. -/
theorem foldlM_ofFn {body : σ → β → Option σ} {entry : Fin k → β} {f : τ → Fin k → τ}
    (represent : τ → σ)
    (h : ∀ (i : Fin k) (state : τ),
      body (represent state) (entry i) = some (represent (f state i))) (init : τ) :
    (List.ofFn entry).foldlM body (represent init) = some (represent (Fin.foldl k f init)) := by
  induction k generalizing init with
  | zero => rfl
  | succ k ih =>
    rw [List.ofFn_succ, List.foldlM_cons, h, Fin.foldl_succ]
    exact ih (fun i state ↦ h i.succ state) (f init 0)

theorem foldl_ofFn (body : σ → β → σ) (entry : Fin k → β) (init : σ) :
    (List.ofFn entry).foldl body init = Fin.foldl k (fun state i ↦ body state (entry i)) init := by
  induction k generalizing init with
  | zero => rfl
  | succ k ih => rw [List.ofFn_succ, List.foldl_cons, Fin.foldl_succ, ih]

theorem mapM_ofFn {f : β → Option γ} {entry : Fin k → β} {g : Fin k → γ}
    (h : ∀ i, f (entry i) = some (g i)) : (List.ofFn entry).mapM f = some (List.ofFn g) := by
  induction k with
  | zero => rfl
  | succ k ih =>
    rw [List.ofFn_succ, List.ofFn_succ, List.mapM_cons, h, ih fun i ↦ h i.succ]
    rfl

/-- The ordered sum of the products of two lists, entry by entry. -/
def dot {α : Type} [Arithmetic α] (xs ys : List α) : α :=
  (xs.zip ys).foldl (fun total pair ↦ total + pair.1 * pair.2) Arithmetic.emptySum

theorem dot_toList {α : Type} [Arithmetic α] (xs ys : Vector α k) :
    dot xs.toList ys.toList = Arithmetic.sum fun i ↦ xs.get i * ys.get i := by
  rw [dot, zip_toList, foldl_ofFn]
  rfl

/-! ## Vectors filled by a loop -/

/-- The vector of which the first `i` entries are new. -/
def renewed (i : Nat) (new old : Fin k → β) : Vector β k :=
  Vector.ofFn fun j ↦ if j.val < i then new j else old j

theorem renewed_get (i : Nat) (new old : Fin k → β) (j : Fin k) :
    (renewed i new old).get j = if j.val < i then new j else old j :=
  vector_get_ofFn _ _

theorem renewed_zero (new : Fin k → β) (old : Vector β k) : renewed 0 new old.get = old := by
  rw [renewed, ← vector_eq_ofFn]
  intro j
  rw [if_neg (Nat.not_lt_zero j.val)]

theorem renewed_all (new old : Fin k → β) : renewed k new old = Vector.ofFn new := by
  apply vector_eq_ofFn
  intro j
  rw [renewed_get, if_pos j.isLt]

theorem renewed_set (i : Fin k) (new old : Fin k → β) :
    (renewed i.val new old).set i.val (new i) i.isLt = renewed (i.val + 1) new old := by
  rw [renewed]
  apply vector_eq_ofFn
  intro j
  rw [vector_get_set, vector_get_ofFn]
  split_ifs with hji hlt hlt hlt
  · rw [hji]
  · exact absurd (by rw [hji]; exact Nat.lt_succ_self _) hlt
  · rfl
  · omega
  · have hne : j.val ≠ i.val := fun h ↦ hji (Fin.ext h)
    omega
  · rfl

/-- A loop that writes a new entry at every index fills the whole vector. -/
theorem loop_fill {body : List β → Nat → Option (List β)} {new : Fin k → β} (old : Vector β k)
    (h : ∀ (i : Fin k) (entries : List β), body entries i.val = write entries i.val (new i)) :
    loop k body old.toList = some (Vector.ofFn new).toList := by
  rw [← renewed_zero new old, ← renewed_all new old.get]
  refine loop_eq (fun i ↦ (renewed i new old.get).toList) fun i hi ↦ ?_
  rw [h ⟨i, hi⟩, write_toList, ← renewed_set ⟨i, hi⟩]

/-- A loop that writes a new entry at every index of row `i`, and may read the others before, fills
this row. -/
theorem loop_fillRow {body : List (List β) → Nat → Option (List (List β))} (new : Fin k → β)
    (rows : Vector (Vector β k) m) (i : Fin m)
    (h : ∀ (j : Fin k) (row : Vector β k), row.get j = (rows.get i).get j →
      body (table (rows.set i.val row i.isLt)) j.val =
        writeEntry (table (rows.set i.val row i.isLt)) i.val j.val (new j)) :
    loop k body (table rows) = some (table (rows.set i.val (Vector.ofFn new) i.isLt)) := by
  have hrows : rows = rows.set i.val (renewed 0 new (rows.get i).get) i.isLt := by
    rw [renewed_zero]
    exact (Vector.set_getElem_self i.isLt).symm
  conv => lhs; rw [hrows]
  rw [← renewed_all new (rows.get i).get]
  refine loop_eq
    (fun j ↦ table (rows.set i.val (renewed j new (rows.get i).get) i.isLt)) fun j hj ↦ ?_
  rw [h ⟨j, hj⟩ _ (by rw [renewed_get, if_neg (Nat.lt_irrefl j)])]
  rw [writeEntry_table _ i ⟨j, hj⟩, vector_get_set, if_pos rfl, Vector.set_set,
    renewed_set ⟨j, hj⟩]

end Indexed

end MixedInteger
