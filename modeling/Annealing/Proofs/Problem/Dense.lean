import Annealing.Problem.Dense
import Annealing.Proofs.Problem.Numerals
import Annealing.Proofs.Problem.Terms
import Mathlib.Data.List.ProdSigma
import Mathlib.Data.List.Sort

/-! # Matrices as coefficient maps

A square matrix that is supplied as a list of rows is read as it is.  If it is symmetric, it makes a
coefficient map with one term for each entry of the diagonal and for each entry above it that is not
zero.

* `rows_supply` — a supplied matrix is read back, row by row.
* `above` — the places above the diagonal with an entry that is not zero.
* `readTerms_toCoefficients` — the terms of the map.
-/

namespace Annealing

/-! ## Even nesting -/

namespace Value

/-- Items of the same dimensions make one more dimension. -/
theorem dimsOf?_of_forall {items : List Value} {dims : List Nat} (hsome : items ≠ [])
    (hdims : ∀ item ∈ items, dims? item = some dims) :
    dimsOf? items = some (items.length :: dims) := by
  induction items with
  | nil => exact absurd rfl hsome
  | cons item rest ih =>
    have hitem := hdims item List.mem_cons_self
    cases rest with
    | nil => simp [dimsOf?, hitem]
    | cons next rest =>
      have hrest := ih (by simp) fun item hmem => hdims item (List.mem_cons_of_mem _ hmem)
      simp only [dimsOf?, hitem, hrest, if_true, List.length_cons]

theorem cellsOf_eq_flatMap (items : List Value) : cellsOf items = items.flatMap cells := by
  induction items with
  | nil => rfl
  | cons item rest ih => rw [cellsOf, ih, List.flatMap_cons]

end Value

namespace Dense

/-! ## Squares -/

/-- The matrix has `n` rows of `n` entries. -/
structure Square {α : Type} (n : Nat) (matrix : List (List α)) : Prop where
  length_eq : matrix.length = n
  length_row : ∀ row ∈ matrix, row.length = n

/-- The square of the values at all places. -/
def tabulate {α : Type} (n : Nat) (value : Nat → Nat → α) : List (List α) :=
  (List.range n).map fun i => (List.range n).map (value i)

section Squares

variable {α : Type} {n : Nat} {matrix : List (List α)}

theorem length_tabulate (value : Nat → Nat → α) : (tabulate n value).length = n := by
  simp [tabulate]

theorem cell_tabulate (missing : α) (value : Nat → Nat → α) {i j : Nat} (hi : i < n)
    (hj : j < n) : cell missing (tabulate n value) i j = value i j := by
  simp [cell, tabulate, List.getD_eq_getElem?_getD, hi, hj]

/-- A square is that of its own entries. -/
theorem tabulate_cell (hsquare : Square n matrix) (missing : α) :
    tabulate n (cell missing matrix) = matrix := by
  obtain rfl := hsquare.length_eq
  refine List.ext_getElem (length_tabulate _) fun i _ hi => ?_
  have hrow := hsquare.length_row _ (List.getElem_mem hi)
  refine List.ext_getElem (by simp [tabulate, hrow]) fun j _ hj => ?_
  simp [tabulate, cell, List.getD_eq_getElem?_getD, hi, hj]

theorem Square.exists_row (hsquare : Square n matrix) (missing : α) {i j : Nat} (hi : i < n)
    (hj : j < n) : ∃ row ∈ matrix, cell missing matrix i j ∈ row := by
  obtain rfl := hsquare.length_eq
  have hrow := hsquare.length_row _ (List.getElem_mem hi)
  refine ⟨matrix[i], List.getElem_mem hi, ?_⟩
  have hcell : cell missing matrix i j = matrix[i][j] := by
    simp [cell, List.getD_eq_getElem?_getD, hi, hrow, hj]
  rw [hcell]
  exact List.getElem_mem _

end Squares

/-! ## Supplied matrices -/

/-- A matrix as it is supplied: the list of its rows. -/
def supply (matrix : List (List Float)) : Value :=
  .list (matrix.map fun row => .list (row.map .float))

variable {n : Nat} {matrix : List (List Float)}

theorem dims?_row (row : List Float) :
    Value.dims? (.list (row.map .float)) = some [row.length] := by
  cases row with
  | nil => rfl
  | cons x rest =>
    have hdims : ∀ item ∈ (x :: rest).map Value.float, item.dims? = some [] := by
      simp [Value.dims?]
    rw [Value.dims?, Value.dimsOf?_of_forall (by simp) hdims, List.length_map]

theorem dims?_supply (hsquare : Square n matrix) (hn : n ≠ 0) :
    (supply matrix).dims? = some [n, n] := by
  have hsome : (matrix.map fun row => Value.list (row.map .float)) ≠ [] := by
    intro hnil
    rw [List.map_eq_nil_iff] at hnil
    exact hn (by rw [← hsquare.length_eq, hnil, List.length_nil])
  rw [supply, Value.dims?, Value.dimsOf?_of_forall hsome ?_, List.length_map, hsquare.length_eq]
  intro item hitem
  obtain ⟨row, hrow, rfl⟩ := List.mem_map.mp hitem
  rw [dims?_row, hsquare.length_row row hrow]

theorem cells_supply (matrix : List (List Float)) :
    (supply matrix).cells = matrix.flatten.map .float := by
  have hrow (row : List Float) : (Value.list (row.map .float)).cells = row.map .float := by
    rw [Value.cells, Value.cellsOf_eq_flatMap, List.flatMap_map, List.map_eq_flatMap]
    rfl
  rw [supply, Value.cells, Value.cellsOf_eq_flatMap, List.flatMap_map]
  simp only [hrow, List.map_flatten, List.flatMap_def]

theorem content_floats (dims : List Nat) (xs : List Float) :
    Grid.content ⟨dims, xs.map .float⟩ = .numbers xs := by
  have hnumber (x : Float) : (Value.float x).machineNumber? = some x := rfl
  have htext (x : Float) : (Value.float x).isText = false := rfl
  have hall : (xs.map Value.float).filterMap Value.machineNumber? = xs := by
    rw [List.filterMap_map]
    exact List.filterMap_some
  simp [Grid.content, hnumber, htext, hall]

/-- The rows of a matrix, laid one after the other, are cut apart again. -/
theorem pieces_flatten {α : Type} {matrix : List (List α)}
    (hrows : ∀ row ∈ matrix, row.length = n) : pieces n matrix.length matrix.flatten = matrix := by
  induction matrix with
  | nil => rfl
  | cons row matrix ih =>
    have hrow := hrows row List.mem_cons_self
    rw [List.length_cons, pieces, List.flatten_cons, List.take_left' hrow, List.drop_left' hrow,
      ih fun row hmem => hrows row (List.mem_cons_of_mem _ hmem)]

/-- A supplied matrix is read as it is, if it is symmetric. -/
theorem rows_supply (hsquare : Square n matrix) (hn : n ≠ 0) :
    rows (supply matrix) = if isSymmetric matrix then .ok matrix else .error .notSymmetric := by
  have hgrid : (supply matrix).grid? = .ok ⟨[n, n], matrix.flatten.map .float⟩ := by
    rw [Value.grid?, dims?_supply hsquare hn, cells_supply]
    rfl
  have hpieces : pieces n n matrix.flatten = matrix := by
    have hcut := pieces_flatten hsquare.length_row
    rwa [hsquare.length_eq] at hcut
  simp only [rows, hgrid, bind, Except.bind, content_floats, hpieces]
  simp [pure, Except.pure, throw, throwThe, MonadExceptOf.throw]

/-! ## Terms -/

/-- The places above the diagonal with an entry that is not zero, row by row. -/
def above (matrix : List (List Float)) : List (Nat × Nat) :=
  (places matrix.length).filter fun p => p.1 < p.2 && cell 0 matrix p.1 p.2 != 0

/-- The terms of a matrix: those of the diagonal, then those above it. -/
def terms (matrix : List (List Float)) : List (Term Float) :=
  (List.range matrix.length).map (fun i : Nat => ⟨.one i, cell 0 matrix i i⟩) ++
    (above matrix).map fun p => ⟨.two p.1 p.2, cell 0 matrix p.1 p.2⟩

theorem mem_places {i j : Nat} : (i, j) ∈ places n ↔ i < n ∧ j < n := by
  simp [places]

theorem nodup_places (n : Nat) : (places n).Nodup := by
  have hproduct : places n = (List.range n).product (List.range n) := rfl
  rw [hproduct]
  exact List.Nodup.product List.nodup_range List.nodup_range

theorem mem_above {i j : Nat} :
    (i, j) ∈ above matrix ↔ i < j ∧ j < matrix.length ∧ (cell 0 matrix i j != 0) = true := by
  rw [above, List.mem_filter, mem_places]
  simp only [Bool.and_eq_true, decide_eq_true_eq]
  constructor
  · rintro ⟨⟨-, hj⟩, hlt, hsome⟩
    exact ⟨hlt, hj, hsome⟩
  · rintro ⟨hlt, hj, hsome⟩
    exact ⟨⟨hlt.trans hj, hj⟩, hlt, hsome⟩

theorem nodup_above (matrix : List (List Float)) : (above matrix).Nodup :=
  (nodup_places _).filter _

/-- The entry above the diagonal that stands for a pair of indices. -/
def upper (matrix : List (List Float)) (i j : Nat) : Float :=
  cell 0 matrix (min i j) (max i j)

theorem upper_of_lt {i j : Nat} (hlt : i < j) : upper matrix i j = cell 0 matrix i j := by
  rw [upper, Nat.min_eq_left hlt.le, Nat.max_eq_right hlt.le]

theorem upper_comm (matrix : List (List Float)) (i j : Nat) :
    upper matrix i j = upper matrix j i := by
  rw [upper, upper, Nat.min_comm, Nat.max_comm]

/-- A pair of indices is met above the diagonal in one order or the other. -/
theorem mem_above_or {i j : Nat} :
    (i, j) ∈ above matrix ∨ (j, i) ∈ above matrix ↔
      i ≠ j ∧ i < matrix.length ∧ j < matrix.length ∧ (upper matrix i j != 0) = true := by
  rw [mem_above, mem_above]
  constructor
  · rintro (⟨hlt, hj, hsome⟩ | ⟨hgt, hi, hsome⟩)
    · rw [← upper_of_lt hlt] at hsome
      exact ⟨hlt.ne, hlt.trans hj, hj, hsome⟩
    · rw [← upper_of_lt hgt, upper_comm] at hsome
      exact ⟨hgt.ne', hi, hgt.trans hi, hsome⟩
  · rintro ⟨hne, hi, hj, hsome⟩
    rcases Nat.lt_or_gt_of_ne hne with hlt | hgt
    · exact .inl ⟨hlt, hj, by rwa [← upper_of_lt hlt]⟩
    · exact .inr ⟨hgt, hi, by rwa [← upper_of_lt hgt, upper_comm]⟩

/-- The columns above the diagonal, counted from it, are the later ones of all columns. -/
theorem filter_lt_range (n i : Nat) :
    (List.range n).filter (fun j => i < j) = List.range' (i + 1) (n - (i + 1)) := by
  refine List.Pairwise.eq_of_mem_iff (List.pairwise_lt_range.filter _) List.pairwise_lt_range' ?_
  intro j
  simp only [List.mem_filter, List.mem_range, decide_eq_true_eq, List.mem_range'_1]
  omega

theorem upperTriangle_eq (matrix : List (List Float)) :
    upperTriangle matrix = (above matrix).map fun p =>
      (Text.integerText p.1 ++ "," ++ Text.integerText p.2, cell 0 matrix p.1 p.2) := by
  have habove : above matrix = (List.range matrix.length).flatMap fun i =>
      ((List.range' (i + 1) (matrix.length - (i + 1))).filter fun j =>
        cell 0 matrix i j != 0).map fun j => (i, j) := by
    rw [above, places, List.filter_flatMap]
    refine List.flatMap_congr fun i _ => ?_
    rw [List.filter_map, ← filter_lt_range, List.filter_filter]
    congr 1
    refine List.filter_congr fun j _ => ?_
    exact Bool.and_comm _ _
  rw [habove, List.map_flatMap]
  simp only [List.map_map]
  rfl

/-! ## The coefficient map -/

/-- A matrix is accepted if its rows are, and its indices can be written. -/
theorem coefficients_eq_ok_iff {problem : Value} {coefs : List (String × Float)} :
    coefficients problem = .ok coefs ↔
      ∃ matrix, rows problem = .ok matrix ∧ (∀ i < matrix.length, Text.Writable (i : Nat)) ∧
        coefs = diagonal matrix ++ upperTriangle matrix := by
  cases hrows : rows problem with
  | error fault => simp [coefficients, hrows, bind, Except.bind]
  | ok matrix =>
    have hwritable : areWritable matrix.length = true ↔
        ∀ i < matrix.length, Text.Writable (i : Nat) := by
      simp [areWritable, Text.Writable]
    simp only [coefficients, hrows, bind, Except.bind, Except.ok.injEq, exists_eq_left',
      ← hwritable]
    split
    · rename_i hyes
      simp [hyes, pure, Except.pure, eq_comm]
    · rename_i hno
      simp [hno, throw, throwThe, MonadExceptOf.throw]

/-- What it takes for a supplied square to be accepted, and what comes of it. -/
theorem of_coefficients_supply (hsquare : Square n matrix) {coefs : List (String × Float)}
    (haccept : coefficients (supply matrix) = .ok coefs) :
    (∀ i < n, Text.Writable (i : Nat)) ∧ coefs = diagonal matrix ++ upperTriangle matrix := by
  obtain ⟨read, hrows, hwritable, rfl⟩ := coefficients_eq_ok_iff.mp haccept
  by_cases hn : n = 0
  · subst hn
    obtain rfl := List.length_eq_zero_iff.mp hsquare.length_eq
    cases hrows
  · rw [rows_supply hsquare hn] at hrows
    split at hrows
    · cases hrows
      exact ⟨hsquare.length_eq ▸ hwritable, rfl⟩
    · cases hrows

/-- The map of a matrix is read, and its terms are those of the matrix. -/
theorem readTerms_toCoefficients (hsquare : Square n matrix)
    (hfinite : ∀ i < n, ∀ j < n, (cell 0 matrix i j).isFinite = true)
    (hwritable : ∀ i < n, Text.Writable (i : Nat)) :
    (toCoefficients (diagonal matrix ++ upperTriangle matrix)).readTerms Coefficients.readWeight =
      .ok (terms matrix) := by
  obtain rfl := hsquare.length_eq
  rw [Coefficients.readTerms_eq_ok_iff, toCoefficients, List.map_append, terms]
  refine List.rel_append ?_ ?_
  · rw [diagonal, List.map_map, List.forall₂_map_left_iff, List.forall₂_map_right_iff,
      List.forall₂_same]
    intro i hi
    have hi := List.mem_range.mp hi
    exact ⟨Key.read_one (hwritable i hi), if_pos (hfinite i hi i hi)⟩
  · rw [upperTriangle_eq, List.map_map, List.forall₂_map_left_iff, List.forall₂_map_right_iff,
      List.forall₂_same]
    rintro ⟨i, j⟩ hmem
    obtain ⟨hlt, hj, -⟩ := mem_above.mp hmem
    have hi := hlt.trans hj
    exact ⟨Key.read_two (hwritable i hi) (hwritable j hj), if_pos (hfinite i hi j hj)⟩

end Dense

end Annealing
