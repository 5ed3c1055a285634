import Annealing.Proofs.Decimal.Sums
import Annealing.Proofs.Graph.QuadraticForm
import Annealing.Proofs.Problem.Dense

/-! # The graph of a matrix

The coefficient map of a square matrix leads through texts, ranks and flat arrays to a graph, and
the coupling matrix of that graph is the matrix that was supplied: its upper triangle, once more
below the diagonal, with the diagonal among the biases.

* `varsOf_terms`, `linear_terms`, `mem_neighbours_terms` — the graph of the terms of a matrix.
* `Sparse.entry_of_mem`, `Sparse.entry_of_forall_ne` — an entry of a matrix whose rows name each
  column once.
* `build_of_matrix` — the graph of the whole map.
-/

namespace Annealing

/-! ## Entries of a sparse matrix -/

namespace Sparse

variable {ω : Type} [OfNat ω 0] [Add ω]

omit [OfNat ω 0] in
/-- Nothing is added for a column that a row does not name. -/
theorem foldl_row_of_forall_ne {row : List (Nat × ω)} {j : Nat} (hne : ∀ e ∈ row, e.1 ≠ j)
    (sum : ω) : row.foldl (fun sum e => if e.1 = j then sum + e.2 else sum) sum = sum := by
  induction row with
  | nil => rfl
  | cons e row ih =>
    rw [List.foldl_cons, if_neg (hne e List.mem_cons_self)]
    exact ih fun e hmem => hne e (List.mem_cons_of_mem _ hmem)

omit [OfNat ω 0] in
/-- The weight of a column is added once where no column is named twice. -/
theorem foldl_row_of_mem {row : List (Nat × ω)} (hascending : (row.map Prod.fst).Pairwise (· < ·))
    {j : Nat} {w : ω} (hmem : (j, w) ∈ row) (sum : ω) :
    row.foldl (fun sum e => if e.1 = j then sum + e.2 else sum) sum = sum + w := by
  induction row with
  | nil => cases hmem
  | cons e row ih =>
    obtain ⟨hless, hrest⟩ := List.pairwise_cons.mp hascending
    rw [List.foldl_cons]
    cases hmem with
    | head =>
      rw [if_pos rfl]
      exact foldl_row_of_forall_ne (fun e he => (hless e.1 (List.mem_map_of_mem he)).ne') _
    | tail _ hmem =>
      rw [if_neg (hless j (List.mem_map_of_mem hmem)).ne]
      exact ih hrest hmem

variable {matrix : Sparse ω} {i j : Nat}

theorem entry_of_forall_ne (hne : ∀ e ∈ matrix.row i, e.1 ≠ j) : matrix.entry i j = 0 :=
  foldl_row_of_forall_ne hne 0

theorem entry_of_mem (hascending : ((matrix.row i).map Prod.fst).Pairwise (· < ·)) {w : ω}
    (hmem : (j, w) ∈ matrix.row i) : matrix.entry i j = 0 + w :=
  foldl_row_of_mem hascending hmem 0

end Sparse

namespace Graph

open Annealing.Dense (Square above upper cell terms)

/-! ## Amounts of places that are booked once -/

section Amounts

variable {ω : Type}

theorem amounts_append (place : Place) (entries more : List (Place × ω)) :
    amounts place (entries ++ more) = amounts place entries ++ amounts place more := by
  simp [amounts]

/-- Where each of several places is booked once, one amount is booked there. -/
theorem amounts_map {α : Type} [BEq α] [LawfulBEq α] {xs : List α} (hnodup : xs.Nodup)
    {place : α → Place} (hinjective : Function.Injective place) (weight : α → ω) (x : α) :
    amounts (place x) (xs.map fun y => (place y, weight y)) =
      if x ∈ xs then [weight x] else [] := by
  have hfilter : xs.filter (fun y => place y = place x) = xs.filter (· == x) := by
    refine List.filter_congr fun y _ => ?_
    rw [Bool.eq_iff_iff, decide_eq_true_iff, hinjective.eq_iff, beq_iff_eq]
  have hcount : xs.count x = if x ∈ xs then 1 else 0 := hnodup.count
  rw [amounts, List.filter_map, List.map_map]
  change (xs.filter fun y => place y = place x).map weight = _
  rw [hfilter, List.filter_beq, hcount]
  split <;> simp

theorem amounts_map_of_ne {α : Type} {xs : List α} {place : α → Place} (weight : α → ω)
    {other : Place} (hne : ∀ x, place x ≠ other) :
    amounts other (xs.map fun x => (place x, weight x)) = [] := by
  rw [amounts_eq_nil_iff]
  intro entry hmem
  obtain ⟨x, -, rfl⟩ := List.mem_map.mp hmem
  exact hne x

end Amounts

/-! ## Terms of a matrix -/

section Terms

variable {n : Nat} {matrix : List (List Float)}

/-- The variables are the indices of the matrix: each of them has its term on the diagonal. -/
theorem varsOf_terms (hsquare : Square n matrix) :
    varsOf (terms matrix) = (List.range n).map Int.ofNat := by
  obtain rfl := hsquare.length_eq
  have hascending : ((List.range matrix.length).map Int.ofNat).Pairwise (· < ·) :=
    List.pairwise_map.mpr (List.pairwise_lt_range.imp fun h => Int.ofNat_lt.mpr h)
  refine List.Pairwise.eq_of_mem_iff (ascending_pairwise _) hascending fun v => ?_
  rw [mem_varsOf]
  simp only [terms, List.mem_append, List.mem_map, List.mem_range]
  constructor
  · rintro ⟨term, ⟨i, hi, rfl⟩ | ⟨⟨i, j⟩, hmem, rfl⟩, hv⟩
    · exact ⟨i, hi, (List.mem_singleton.mp hv).symm⟩
    · obtain ⟨hlt, hj, -⟩ := Dense.mem_above.mp hmem
      simp only [Key.vars, List.mem_cons, List.not_mem_nil, or_false] at hv
      rcases hv with rfl | rfl
      · exact ⟨i, hlt.trans hj, rfl⟩
      · exact ⟨j, hj, rfl⟩
  · rintro ⟨i, hi, rfl⟩
    exact ⟨_, .inl ⟨i, hi, rfl⟩, List.mem_singleton_self _⟩

/-- So the node of a variable is the index itself. -/
theorem idxOf_range {i : Nat} (hi : i < n) :
    ((List.range n).map Int.ofNat).idxOf (i : Int) = i := by
  have hnodup : ((List.range n).map Int.ofNat).Nodup :=
    List.nodup_range.map fun _ _ => Int.ofNat.inj
  have hlength : i < ((List.range n).map Int.ofNat).length := by simpa using hi
  have hget : ((List.range n).map Int.ofNat)[i] = (i : Int) := by simp
  have hfound := hnodup.idxOf_getElem i hlength
  rwa [hget] at hfound

theorem entriesOf_terms (hsquare : Square n matrix) :
    entriesOf (terms matrix) =
      (List.range n).map (fun i => (.bias i, cell 0 matrix i i)) ++
        (above matrix).map fun p => (.coupling p.1 p.2, cell 0 matrix p.1 p.2) := by
  rw [entriesOf, varsOf_terms hsquare, terms, List.map_append, List.map_map, List.map_map,
    hsquare.length_eq]
  congr 1
  · refine List.map_congr_left fun i hi => ?_
    simp only [Function.comp_apply, Key.place, idxOf_range (List.mem_range.mp hi)]
  · refine List.map_congr_left fun p hp => ?_
    obtain ⟨hlt, hj, -⟩ := Dense.mem_above.mp hp
    rw [hsquare.length_eq] at hj
    have hne : (p.1 : Int) ≠ p.2 := fun h => hlt.ne (Int.ofNat.inj h)
    simp only [Function.comp_apply, Key.place, if_neg hne, idxOf_range hj,
      idxOf_range (hlt.trans hj), Nat.min_eq_left hlt.le, Nat.max_eq_right hlt.le]

/-- One amount is booked at each bias, the entry of the diagonal. -/
theorem amounts_bias (hsquare : Square n matrix) {i : Nat} (hi : i < n) :
    amounts (.bias i) (entriesOf (terms matrix)) = [cell 0 matrix i i] := by
  have hinjective : Function.Injective Place.bias := fun _ _ => Place.bias.inj
  have hbiases := amounts_map (List.nodup_range (n := n)) hinjective (fun i => cell 0 matrix i i) i
  rw [entriesOf_terms hsquare, amounts_append, hbiases, if_pos (List.mem_range.mpr hi),
    amounts_map_of_ne _ fun _ => Place.noConfusion, List.append_nil]

/-- One amount is booked at the coupling of each entry above the diagonal that is not zero. -/
theorem amounts_coupling (hsquare : Square n matrix) (i j : Nat) :
    amounts (.coupling i j) (entriesOf (terms matrix)) =
      if (i, j) ∈ above matrix then [cell 0 matrix i j] else [] := by
  have hinjective : Function.Injective fun p : Nat × Nat => Place.coupling p.1 p.2 := by
    rintro ⟨i, j⟩ ⟨k, l⟩ heq
    cases heq
    rfl
  rw [entriesOf_terms hsquare, amounts_append, amounts_map_of_ne _ fun _ => Place.noConfusion,
    List.nil_append]
  exact amounts_map (Dense.nodup_above matrix) hinjective (fun p => cell 0 matrix p.1 p.2) (i, j)

theorem linear_terms (hsquare : Square n matrix) {i : Nat} (hi : i < n) :
    (ofTerms (terms matrix)).linear.getD i 0 = 0 + cell 0 matrix i i := by
  have hlength : i < (varsOf (terms matrix)).length := by
    simpa [varsOf_terms hsquare] using hi
  rw [linear_ofTerms, getD_biases hlength, amounts_bias hsquare hi]
  rfl

theorem mem_ledgerOf_terms (hsquare : Square n matrix) {i j : Nat} {w : Float} :
    ((i, j), w) ∈ ledgerOf (terms matrix) ↔
      (i, j) ∈ above matrix ∧ w = 0 + cell 0 matrix i j := by
  rw [ledgerOf, mem_couplings_iff, amounts_coupling hsquare]
  by_cases hmem : (i, j) ∈ above matrix
  · simp [hmem, leftSum]
  · simp [hmem]

/-- The neighbours of an index are those with which it has an entry above the diagonal that is not
    zero. -/
theorem mem_neighbours_terms (hsquare : Square n matrix) {i j : Nat} {w : Float} :
    (j, w) ∈ (ofTerms (terms matrix)).neighbours i ↔
      (i ≠ j ∧ i < n ∧ j < n ∧ (upper matrix i j != 0) = true) ∧ w = 0 + upper matrix i j := by
  have hlt {i j : Nat} : ((i, j), w) ∈ ledgerOf (terms matrix) ↔
      (i, j) ∈ above matrix ∧ w = 0 + upper matrix i j := by
    rw [mem_ledgerOf_terms hsquare]
    refine and_congr_right fun hmem => ?_
    rw [Dense.upper_of_lt (Dense.mem_above.mp hmem).1]
  rw [neighbours_ofTerms, mem_row (booked_ledgerOf _), hlt, hlt, Dense.upper_comm matrix j i,
    ← or_and_right, Dense.mem_above_or, hsquare.length_eq]

/-- Each entry above the diagonal that is not zero has two slots. -/
theorem edgeCount_terms (hsquare : Square n matrix) :
    (ofTerms (terms matrix)).edgeCount = 2 * (above matrix).length := by
  have hkeys : (ledgerOf (terms matrix)).keys.Perm (above matrix) := by
    rw [List.perm_ext_iff_of_nodup (booked_ledgerOf _).nodup (Dense.nodup_above matrix)]
    rintro ⟨i, j⟩
    rw [Ledger.keys, List.mem_map]
    constructor
    · rintro ⟨⟨pair, w⟩, hmem, rfl⟩
      exact ((mem_ledgerOf_terms hsquare).mp hmem).1
    · intro hmem
      exact ⟨((i, j), _), (mem_ledgerOf_terms hsquare).mpr ⟨hmem, rfl⟩, rfl⟩
  rw [edgeCount_ofTerms, ← length_ledgerOf, ← hkeys.length_eq, Ledger.keys, List.length_map]

/-- The neighbours of an index, ascending. -/
theorem targets_terms (hsquare : Square n matrix) {i : Nat} (hi : i < n) :
    ((ofTerms (terms matrix)).neighbours i).map Prod.fst =
      (List.range n).filter fun j => i ≠ j && upper matrix i j != 0 := by
  have hwf : (ofTerms (terms matrix)).WellFormed := wellFormed_ofTerms _
  refine List.Pairwise.eq_of_mem_iff (hwf.targets_ascending i) (List.pairwise_lt_range.filter _) ?_
  intro j
  simp only [List.mem_map, List.mem_filter, List.mem_range, Bool.and_eq_true, decide_eq_true_eq]
  constructor
  · rintro ⟨⟨k, w⟩, hmem, rfl⟩
    obtain ⟨⟨hne, -, hk, hsome⟩, -⟩ := (mem_neighbours_terms hsquare).mp hmem
    exact ⟨hk, hne, hsome⟩
  · rintro ⟨hj, hne, hsome⟩
    exact ⟨(j, _), (mem_neighbours_terms hsquare).mpr ⟨⟨hne, hi, hj, hsome⟩, rfl⟩, rfl⟩

/-- An entry of the coupling matrix is that above the diagonal, and zero on the diagonal. -/
theorem entry_terms (hsquare : Square n matrix)
    (hfinite : ∀ i < n, ∀ j < n, (cell 0 matrix i j).isFinite = true) {i j : Nat} (hi : i < n)
    (hj : j < n) :
    ((ofTerms (terms matrix)).toSparse.entry i j ==
      if i = j then 0 else upper matrix i j) = true := by
  have hsize : i < (ofTerms (terms matrix)).size := by
    simpa [varsOf_terms hsquare] using hi
  have hrow : (ofTerms (terms matrix)).toSparse.row i = (ofTerms (terms matrix)).neighbours i :=
    row_toSparse_ofTerms _ hsize
  have hascending := (wellFormed_ofTerms (terms matrix)).targets_ascending i
  rw [← hrow] at hascending
  have hupper : (upper matrix i j).isFinite = true := hfinite _ (by omega) _ (by omega)
  by_cases hmem : (j, 0 + upper matrix i j) ∈ (ofTerms (terms matrix)).neighbours i
  · obtain ⟨⟨hne, -⟩, -⟩ := (mem_neighbours_terms hsquare).mp hmem
    -- Zero is added to twice: when the coupling is booked, and when the entry is read.
    rw [Sparse.entry_of_mem hascending (hrow ▸ hmem), if_neg hne]
    exact Decimal.zero_add_zero_add_beq hupper
  · have hnone : ∀ e ∈ (ofTerms (terms matrix)).toSparse.row i, e.1 ≠ j := by
      rintro ⟨k, w⟩ hk rfl
      rw [hrow] at hk
      obtain ⟨-, rfl⟩ := (mem_neighbours_terms hsquare).mp hk
      exact hmem hk
    rw [Sparse.entry_of_forall_ne hnone]
    split
    · exact Decimal.beq_self rfl
    · rename_i hne
      have hzero : (upper matrix i j == 0) = true := by
        by_contra hnot
        refine hmem ((mem_neighbours_terms hsquare).mpr ⟨⟨hne, hi, hj, ?_⟩, rfl⟩)
        simpa [bne] using hnot
      exact Decimal.beq_symm hzero

end Terms

end Graph

/-! ## Comparing matrices -/

namespace Dense

/-- The entries above the diagonal, and once more below it, with zeros between them. -/
def mirror (matrix : List (List Float)) : List (List Float) :=
  tabulate matrix.length fun i j => if i = j then 0 else upper matrix i j

/-- The matrix with another diagonal. -/
def withDiagonal (diagonal : Array Float) (matrix : List (List Float)) : List (List Float) :=
  tabulate matrix.length fun i j => if i = j then diagonal.getD i 0 else cell 0 matrix i j

/-- Two matrices have equal numbers at all places. -/
def Equal (a b : List (List Float)) : Prop :=
  List.Forall₂ (List.Forall₂ fun x y => (x == y) = true) a b

theorem equal_tabulate {n : Nat} {value other : Nat → Nat → Float}
    (hequal : ∀ i < n, ∀ j < n, (value i j == other i j) = true) :
    Equal (tabulate n value) (tabulate n other) := by
  simp only [Equal, tabulate, List.forall₂_map_left_iff, List.forall₂_map_right_iff,
    List.forall₂_same, List.mem_range]
  exact hequal

/-- An exactly symmetric matrix is known by its diagonal and by what is above it. -/
theorem equal_withDiagonal {n : Nat} {matrix : List (List Float)} (hsquare : Square n matrix)
    (hfinite : ∀ i < n, ∀ j < n, (cell 0 matrix i j).isFinite = true)
    (hsymmetric : ∀ i < n, ∀ j < n, (cell 0 matrix i j == cell 0 matrix j i) = true)
    {diagonal : Array Float} (hdiagonal : ∀ i < n, (diagonal.getD i 0 == cell 0 matrix i i) = true)
    {value : Nat → Nat → Float}
    (hvalue : ∀ i < n, ∀ j < n, (value i j == if i = j then 0 else upper matrix i j) = true) :
    Equal (withDiagonal diagonal (tabulate n value)) matrix := by
  suffices hequal : Equal (withDiagonal diagonal (tabulate n value)) (tabulate n (cell 0 matrix)) by
    rwa [tabulate_cell hsquare] at hequal
  rw [withDiagonal, length_tabulate]
  refine equal_tabulate fun i hi j hj => ?_
  rw [cell_tabulate 0 _ hi hj]
  have hplace := hvalue i hi j hj
  split
  · rename_i heq
    exact heq ▸ hdiagonal i hi
  · rename_i hne
    rw [if_neg hne] at hplace
    refine Decimal.beq_trans hplace ?_
    rcases Nat.lt_or_gt_of_ne hne with hlt | hgt
    · rw [upper_of_lt hlt]
      exact Decimal.beq_self (hfinite i hi j hj)
    · rw [upper_comm, upper_of_lt hgt]
      exact hsymmetric j hj i hi

end Dense

/-! ## The whole way -/

namespace Graph

open Annealing.Dense (Square above upper cell supply mirror withDiagonal)

/-- A square matrix of finite doubles that is accepted leads to a graph.  Its variables are the
    indices of the matrix in order, its biases the entries of the diagonal, zero or not.  Each index
    is a neighbour of those with which it has an entry above the diagonal that is not zero, and each
    such entry has two slots.  The coupling matrix of the graph is the part above the diagonal,
    mirrored; where the matrix was exactly symmetric, the biases on the diagonal of the coupling
    matrix make it the matrix again.

    Numbers are compared as numbers, so zero has no sign. -/
theorem build_of_matrix {n : Nat} {matrix : List (List Float)} (hsquare : Square n matrix)
    (hfinite : ∀ row ∈ matrix, ∀ x ∈ row, x.isFinite = true) {coefs : List (String × Float)}
    (haccept : Dense.coefficients (supply matrix) = .ok coefs) :
    ∃ graph : Graph Float,
      Graph.build Coefficients.readWeight (Dense.toCoefficients coefs) = .ok graph ∧
      graph.vars = (List.range n).map Int.ofNat ∧
      graph.linear.size = n ∧
      (∀ i < n, (graph.linear.getD i 0 == cell 0 matrix i i) = true) ∧
      (∀ i < n, (graph.neighbours i).map Prod.fst =
        (List.range n).filter fun j => i ≠ j && upper matrix i j != 0) ∧
      graph.edgeCount = 2 * (above matrix).length ∧
      Dense.Equal graph.toSparse.dense (mirror matrix) ∧
      ((∀ i < n, ∀ j < n, (cell 0 matrix i j == cell 0 matrix j i) = true) →
        Dense.Equal (withDiagonal graph.linear graph.toSparse.dense) matrix) := by
  obtain ⟨hwritable, rfl⟩ := Dense.of_coefficients_supply hsquare haccept
  have hcell : ∀ i < n, ∀ j < n, (cell 0 matrix i j).isFinite = true := by
    intro i hi j hj
    obtain ⟨row, hrow, hmem⟩ := hsquare.exists_row 0 hi hj
    exact hfinite row hrow _ hmem
  have hread := Dense.readTerms_toCoefficients hsquare hcell hwritable
  have hvars := varsOf_terms hsquare
  have hsize : (ofTerms (Dense.terms matrix)).toSparse.size = n := by
    change (varsOf (Dense.terms matrix)).length = n
    rw [hvars, List.length_map, List.length_range]
  have hlinear : ∀ i < n, ((ofTerms (Dense.terms matrix)).linear.getD i 0 ==
      cell 0 matrix i i) = true := by
    intro i hi
    rw [linear_terms hsquare hi]
    exact Decimal.zero_add_beq (hcell i hi i hi)
  have hentry := fun i (hi : i < n) j (hj : j < n) => entry_terms hsquare hcell hi hj
  have hdense : (ofTerms (Dense.terms matrix)).toSparse.dense =
      Dense.tabulate n (ofTerms (Dense.terms matrix)).toSparse.entry := by
    rw [← hsize]
    rfl
  refine ⟨ofTerms (Dense.terms matrix), build_eq_ok_iff.mpr ⟨_, hread, rfl⟩, hvars, ?_, hlinear,
    fun i hi => targets_terms hsquare hi, edgeCount_terms hsquare, ?_, fun hsymmetric => ?_⟩
  · rw [linear_ofTerms, size_biases, hvars, List.length_map, List.length_range]
  · rw [hdense, mirror, hsquare.length_eq]
    exact Dense.equal_tabulate hentry
  · rw [hdense]
    exact Dense.equal_withDiagonal hsquare hcell hsymmetric hlinear hentry

end Graph

/-- A symmetric matrix for examples, with indices of one digit and of two. -/
def Dense.sample : List (List Float) :=
  tabulate 11 fun i j =>
    if i = j then (if i = 4 then -0.0 else 1)
    else if min i j = 2 ∧ max i j = 10 then 2.5
    else if i + j = 3 then -3
    else 0

theorem Graph.build_of_matrix_sample :
    ∃ coefs, Dense.coefficients (Dense.supply Dense.sample) = .ok coefs ∧
      ∃ graph : Graph Float,
        Graph.build Coefficients.readWeight (Dense.toCoefficients coefs) = .ok graph ∧
        graph.vars = [0, 1, 2, 3, 4, 5, 6, 7, 8, 9, 10] ∧
        (graph.linear.getD 4 0 == 0) = true ∧
        (graph.neighbours 2).map Prod.fst = [1, 10] ∧
        graph.edgeCount = 6 ∧
        Dense.Equal (Dense.withDiagonal graph.linear graph.toSparse.dense) Dense.sample := by
  have hsquare : Dense.Square 11 Dense.sample := ⟨by decide +kernel, by decide +kernel⟩
  have hfinite : ∀ row ∈ Dense.sample, ∀ x ∈ row, x.isFinite = true := by decide +kernel
  have hrows : Dense.rows (Dense.supply Dense.sample) = .ok Dense.sample := by
    rw [Dense.rows_supply hsquare (by decide), if_pos (by decide +kernel)]
  have haccept := Dense.coefficients_eq_ok_iff.mpr
    ⟨Dense.sample, hrows, by rw [hsquare.length_eq]; unfold Text.Writable; decide, rfl⟩
  obtain ⟨graph, hbuild, hvars, -, hlinear, htargets, hedges, -, hequal⟩ :=
    build_of_matrix hsquare hfinite haccept
  refine ⟨_, haccept, graph, hbuild, hvars.trans (by decide), ?_, ?_, ?_, hequal ?_⟩
  · exact Decimal.beq_trans (hlinear 4 (by decide)) (by decide +kernel)
  · rw [htargets 2 (by decide)]
    decide +kernel
  · rw [hedges]
    decide +kernel
  · decide +kernel

end Annealing
