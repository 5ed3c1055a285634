import Annealing.Graph.Sparse
import Annealing.Proofs.Graph.Energy
import Mathlib.Algebra.BigOperators.Field
import Mathlib.Algebra.BigOperators.Group.Finset.Sigma

/-! # The quadratic form over the coupling matrix

The coupling matrix of a graph shares its flat arrays; only the starts of the rows are closed by
the number of all entries.  The quadratic form takes half of the whole symmetric matrix, the
energy counts each coupling at one of its ends.

* `row_toSparse_ofRows` — a row of the matrix is the neighbour list of its node.
* `sum_pairs` — in a symmetric matrix with a zero diagonal, each pair is met twice.
* `quadraticForm_bits` — the form at the bits of a state is the energy of the state.
-/

namespace Annealing.Graph

open State (Binary support)

variable {ω : Type}

/-! ## Rows of the matrix -/

/-- Where the rows of the matrix start, and where the last one ends. -/
theorem indptr_ofRows (vars : List Int) (linear : Array ω) {rows : List (List (Nat × ω))} {i : Nat}
    (hi : i ≤ rows.length) :
    (ofRows vars linear rows).toSparse.indptr.getD i 0 =
      ((rows.map List.length).take i).sum := by
  have hoffsets : (ofRows vars linear rows).offsets =
      (starts 0 (rows.map List.length)).toArray := rfl
  have hsize : (ofRows vars linear rows).offsets.size = rows.length := by
    simp [hoffsets]
  simp only [toSparse, Array.getD_eq_getD_getElem?, Array.getElem?_push, hsize]
  split
  · rename_i hlast
    subst hlast
    rw [edgeCount_ofRows, Option.getD_some, List.take_of_length_le (by simp)]
  · rename_i hinner
    have hlt : i < (starts 0 (rows.map List.length)).length := by
      simp only [length_starts, List.length_map]
      omega
    rw [hoffsets, List.getElem?_toArray, List.getElem?_eq_getElem hlt, Option.getD_some,
      getElem_starts, Nat.zero_add]

/-- A row of the matrix is the neighbour list of its node. -/
theorem row_toSparse_ofRows [OfNat ω 0] (vars : List Int) (linear : Array ω)
    {rows : List (List (Nat × ω))} {i : Nat} (hi : i < rows.length) :
    (ofRows vars linear rows).toSparse.row i = (ofRows vars linear rows).neighbours i := by
  have hwidth : ((rows.map List.length).take (i + 1)).sum =
      ((rows.map List.length).take i).sum + rows[i].length := by
    rw [List.sum_take_succ _ _ (by simpa using hi), List.getElem_map]
  have hstart : (rows.take i).flatten.length = ((rows.map List.length).take i).sum := by
    rw [List.length_flatten, List.map_take]
  rw [neighbours, slots_ofRows vars linear rows hi, hstart]
  simp only [Sparse.row, indptr_ofRows vars linear hi.le, indptr_ofRows vars linear hi, hwidth,
    Nat.add_sub_cancel_left]
  rfl

theorem row_toSparse_ofTerms [OfNat ω 0] [Add ω] (terms : List (Term ω)) {i : Nat}
    (hi : i < (ofTerms terms).size) :
    (ofTerms terms).toSparse.row i = (ofTerms terms).neighbours i := by
  rw [ofTerms_eq_ofRows]
  apply row_toSparse_ofRows
  simpa using hi

theorem row_toSparse_of_build [OfNat ω 0] [Add ω] {weigh : Value → Value → Except Fault ω}
    {coefficients : Coefficients} {graph : Graph ω}
    (hbuild : Graph.build weigh coefficients = .ok graph) {i : Nat} (hi : i < graph.size) :
    graph.toSparse.row i = graph.neighbours i := by
  obtain ⟨terms, -, rfl⟩ := build_eq_ok_iff.mp hbuild
  exact row_toSparse_ofTerms terms hi

/-- What the matrix makes of a vector, at a row. -/
theorem getD_mulVec [OfNat ω 0] [Add ω] [Mul ω] (matrix : Sparse ω) (x : Array ω) {i : Nat}
    (hi : i < matrix.size) : (matrix.mulVec x).getD i 0 =
      (matrix.row i).foldl (fun sum e => sum + e.2 * x.getD e.1 0) 0 := by
  simp [Sparse.mulVec, Array.getD_eq_getD_getElem?, hi]

/-- A bit is one or zero. -/
theorem getD_bits [OfNat ω 0] [OfNat ω 1] (state : State) (i : Nat) :
    (bits state : Array ω).getD i 0 = if state.bit i ≠ 0 then 1 else 0 := by
  simp only [bits, State.bit, Array.getD_eq_getD_getElem?, Array.getElem?_map]
  cases state[i]? with
  | none => rfl
  | some b => by_cases hb : b = 0 <;> simp [hb]

/-! ## Half of a symmetric sum -/

/-- In a symmetric matrix with a zero diagonal, each pair of a set is met twice. -/
theorem sum_pairs [AddCommMonoid ω] (s : Finset Nat) (weight : Nat → Nat → ω)
    (hsymm : ∀ i j, weight i j = weight j i) (hdiagonal : ∀ i, weight i i = 0) :
    ∑ i ∈ s, ∑ j ∈ s, weight i j = ∑ i ∈ s, ∑ j ∈ s with i < j, weight i j +
      ∑ i ∈ s, ∑ j ∈ s with i < j, weight i j := by
  have hsplit : ∀ i j, weight i j =
      (if i < j then weight i j else 0) + if j < i then weight j i else 0 := by
    intro i j
    rcases Nat.lt_trichotomy i j with hlt | rfl | hgt
    · simp [hlt, hlt.not_gt]
    · simp [hdiagonal]
    · simp [hgt, hgt.not_gt, hsymm i j]
  have hbelow : ∑ i ∈ s, ∑ j ∈ s, (if j < i then weight j i else 0) =
      ∑ i ∈ s, ∑ j ∈ s, if i < j then weight i j else 0 := Finset.sum_comm
  calc ∑ i ∈ s, ∑ j ∈ s, weight i j
      = ∑ i ∈ s, ∑ j ∈ s, ((if i < j then weight i j else 0) + if j < i then weight j i else 0) :=
        Finset.sum_congr rfl fun i _ => Finset.sum_congr rfl fun j _ => hsplit i j
    _ = ∑ i ∈ s, ∑ j ∈ s, (if i < j then weight i j else 0) +
          ∑ i ∈ s, ∑ j ∈ s, if i < j then weight i j else 0 := by
        simp only [Finset.sum_add_distrib, hbelow]
    _ = ∑ i ∈ s, ∑ j ∈ s with i < j, weight i j +
      ∑ i ∈ s, ∑ j ∈ s with i < j, weight i j := by
        simp only [Finset.sum_filter]

/-! ## The form at the bits of a state -/

section Form

variable [DivisionRing ω] {graph : Graph ω}

theorem getD_bits_of_binary {n : Nat} {state : State} (hbinary : Binary n state) (i : Nat) :
    (bits state : Array ω).getD i 0 = if state.bit i = 1 then 1 else 0 := by
  rw [getD_bits]
  rcases hbinary.zero_or_one i with hzero | hone
  · simp [hzero]
  · simp [hone]

/-- What the matrix makes of the bits of a state, at a node. -/
theorem getD_mulVec_bits (hwf : graph.WellFormed)
    (hrows : ∀ i < graph.size, graph.toSparse.row i = graph.neighbours i) {state : State}
    (hbinary : Binary graph.size state) {i : Nat} (hi : i < graph.size) :
    (graph.toSparse.mulVec (bits state)).getD i 0 =
      ∑ j ∈ support graph.size state, graph.pairWeight i j := by
  have hfold : ∀ (sum : ω) (e : Nat × ω), sum + e.2 * (bits state : Array ω).getD e.1 0 =
      if state.bit e.1 = 1 then sum + e.2 else sum := by
    intro sum e
    rw [getD_bits_of_binary hbinary, mul_ite, mul_one, mul_zero]
    split
    · rfl
    · exact add_zero sum
  have hsupport : ∀ neighbour ∈ graph.neighbours i,
      state.bit neighbour.1 = 1 ↔ neighbour.1 ∈ support graph.size state := by
    intro neighbour hmem
    rw [State.mem_support, and_iff_right (hwf.target_lt i neighbour hmem)]
  rw [getD_mulVec graph.toSparse (bits state) hi, hrows i hi]
  simp only [hfold]
  rw [foldl_weights (graph.neighbours i) (state.bit · = 1), zero_add, weightWhere_congr hsupport,
    weightWhere_mem]
  rfl

/-- The quadratic form as a sum over the nodes. -/
theorem quadraticForm_eq_sum (x : Array ω) :
    graph.quadraticForm x = ∑ i ∈ Finset.range x.size,
      x.getD i 0 * ((graph.toSparse.mulVec x).getD i 0 / 2 + graph.linear.getD i 0) := by
  change _ = ((List.range x.size).map _).sum
  rw [quadraticForm, List.sum_eq_foldl, List.foldl_map]

/-- The quadratic form at the bits of a state is the energy of the state. -/
theorem quadraticForm_bits [NeZero (2 : ω)] (hwf : graph.WellFormed)
    (hrows : ∀ i < graph.size, graph.toSparse.row i = graph.neighbours i) {state : State}
    (hbinary : Binary graph.size state) :
    graph.quadraticForm (bits state) = graph.energy state := by
  set s := support graph.size state with hs
  have hsize : (bits state : Array ω).size = graph.size := by
    simp [bits, hbinary.size_eq]
  -- Only nodes that are set contribute, so the sum over all nodes is one over the set.
  have hterms : ∀ i ∈ Finset.range graph.size,
      (bits state : Array ω).getD i 0 *
          ((graph.toSparse.mulVec (bits state)).getD i 0 / 2 + graph.linear.getD i 0) =
        if i ∈ s then (∑ j ∈ s, graph.pairWeight i j) / 2 + graph.linear.getD i 0 else 0 := by
    intro i hrange
    have hi := Finset.mem_range.mp hrange
    rw [getD_bits_of_binary hbinary, getD_mulVec_bits hwf hrows hbinary hi, ite_mul, one_mul,
      zero_mul]
    exact if_congr (by simp [hs, hi]) rfl rfl
  have hmembers : (Finset.range graph.size).filter (· ∈ s) = s := by
    ext i
    simp [hs]
  have hpairs := sum_pairs s graph.pairWeight (pairWeight_symm hwf) (pairWeight_self hwf)
  calc graph.quadraticForm (bits state)
      = ∑ i ∈ s, ((∑ j ∈ s, graph.pairWeight i j) / 2 + graph.linear.getD i 0) := by
        rw [quadraticForm_eq_sum, hsize, Finset.sum_congr rfl hterms, ← Finset.sum_filter,
          hmembers]
    _ = ∑ i ∈ s, ∑ j ∈ s with i < j, graph.pairWeight i j + ∑ i ∈ s, graph.linear.getD i 0 := by
        rw [Finset.sum_add_distrib, ← Finset.sum_div, hpairs, add_self_div_two]
    _ = graph.energy state := by
        rw [energy_eq_setEnergy hwf hbinary.size_eq, setEnergy, Finset.sum_add_distrib, add_comm]

end Form

end Annealing.Graph
