import Annealing.Proofs.Decimal.Factors
import Annealing.Proofs.Graph.Accumulation
import Annealing.Proofs.Graph.Contents
import Annealing.Proofs.Graph.QuadraticForm

/-! # Infinite graphs

Each weight of a map has to be finite, but nothing is asked of what several weights add up to.  So a
bias or a coupling is infinite where a sum on the way to it is beyond all doubles, and such a graph
has energies that are no numbers: the quadratic form multiplies all that stands at a node by the bit
of the node, and zero times an infinity is no number.

* `isFinite_ofTerms_iff` — a graph is finite if and only if all sums on the way to its entries are.
* `isFinite_of_small` — which they are if each weight is small, however many there are.
* `FiniteWhereUnset` — all that is multiplied by the bit of an unset node is finite.
* `quadraticForm_of_finiteWhereUnset`, `isNaN_quadraticForm` — then the unset nodes add nothing to
  the energy, and else the energy is no number.
* `finite_of_build` — both, for the graph of a map.
-/

namespace Annealing

open Decimal (Gated StaysBelow)

/-! ## Weights -/

namespace Coefficients

theorem isFinite_of_readWeight {key weight : Value} {x : Float}
    (hread : readWeight key weight = .ok x) : x.isFinite = true := by
  cases weight with
  | int i =>
    simp only [readWeight] at hread
    split at hread
    · rename_i hofInt
      cases hread
      exact Decimal.isFinite_of_ofInt? hofInt
    · cases hread
  | float y =>
    simp only [readWeight] at hread
    split at hread
    · rename_i hfinite
      cases hread
      exact hfinite
    · cases hread
  | none | bool _ | text _ | list _ | tuple _ | dict _ => cases hread

/-- Every weight of a map that is read is finite. -/
theorem isFinite_of_readTerms {coefficients : Coefficients} {terms : List (Term Float)}
    (hread : coefficients.readTerms readWeight = .ok terms) :
    ∀ term ∈ terms, term.weight.isFinite = true := by
  have hterms := readTerms_eq_ok_iff.mp hread
  clear hread
  induction hterms with
  | nil => simp
  | cons hterm _ ih => exact List.forall_mem_cons.mpr ⟨isFinite_of_readWeight hterm.2, ih⟩

end Coefficients

namespace Graph

/-! ## Finite graphs -/

/-- All biases and all couplings are finite. -/
structure IsFinite (graph : Graph Float) : Prop where
  linear : ∀ bias ∈ graph.linear, bias.isFinite = true
  weights : ∀ w ∈ graph.weights, w.isFinite = true

instance (graph : Graph Float) : Decidable graph.IsFinite :=
  decidable_of_iff ((∀ bias ∈ graph.linear, bias.isFinite = true) ∧
    ∀ w ∈ graph.weights, w.isFinite = true) ⟨fun h => ⟨h.1, h.2⟩, fun h => ⟨h.1, h.2⟩⟩

/-- The couplings are those of the neighbours. -/
theorem WellFormed.mem_weights_iff {ω : Type} [OfNat ω 0] {graph : Graph ω}
    (hwf : graph.WellFormed) {w : ω} :
    w ∈ graph.weights ↔ ∃ i < graph.size, ∃ j, (j, w) ∈ graph.neighbours i := by
  have hget {k : Nat} (hk : k < graph.weights.size) :
      graph.weights.getD k 0 = graph.weights[k] := by
    simp [hk]
  constructor
  · intro hw
    obtain ⟨k, hk, rfl⟩ := Array.mem_iff_getElem.mp hw
    obtain ⟨i, hi, hki⟩ := hwf.lt_edgeCount_iff.mp (hwf.size_weights ▸ hk)
    exact ⟨i, hi, _, List.mem_map.mpr ⟨k, hki, by rw [hget hk]⟩⟩
  · rintro ⟨i, hi, j, hmem⟩
    obtain ⟨k, hki, hk⟩ := List.mem_map.mp hmem
    have hlt : k < graph.weights.size := hwf.size_weights ▸ hwf.lt_edgeCount_iff.mpr ⟨i, hi, hki⟩
    obtain rfl : graph.weights.getD k 0 = w := congrArg Prod.snd hk
    rw [hget hlt]
    exact Array.getElem_mem hlt

section Terms

variable {terms : List (Term Float)} (hfinite : ∀ term ∈ terms, term.weight.isFinite = true)

include hfinite

/-- The weights of some of the terms add up to a finite double if no sum on the way is too great. -/
theorem isFinite_leftSum_filter_iff (p : Term Float → Bool) :
    (leftSum ((terms.filter p).map Term.weight)).isFinite = true ↔
      StaysBelow 0 ((terms.filter p).map Term.weight) := by
  refine Decimal.isFinite_foldl_add_iff (fun w hw => ?_) rfl
  obtain ⟨term, hterm, rfl⟩ := List.mem_map.mp hw
  exact hfinite term (List.mem_filter.mp hterm).1

theorem isFinite_leftSum_soleWeights_iff (v : Int) :
    (leftSum (soleWeights v terms)).isFinite = true ↔ StaysBelow 0 (soleWeights v terms) :=
  isFinite_leftSum_filter_iff hfinite _

theorem isFinite_leftSum_pairWeights_iff (pair : Sym2 Int) :
    (leftSum (pairWeights pair terms)).isFinite = true ↔ StaysBelow 0 (pairWeights pair terms) :=
  isFinite_leftSum_filter_iff hfinite _

/-- The graph of finite terms is finite if and only if no bias and no coupling is added up beyond
    all doubles. -/
theorem isFinite_ofTerms_iff : (ofTerms terms).IsFinite ↔
    (∀ v ∈ varsOf terms, StaysBelow 0 (soleWeights v terms)) ∧
      ∀ u ∈ varsOf terms, ∀ v ∈ varsOf terms, StaysBelow 0 (pairWeights s(u, v) terms) := by
  have hwf := wellFormed_ofTerms terms
  constructor
  · rintro ⟨hlinear, hweights⟩
    refine ⟨fun v hv => ?_, fun u hu v hv => ?_⟩
    · obtain ⟨i, hi⟩ := List.mem_iff_getElem?.mp hv
      rw [← isFinite_leftSum_soleWeights_iff hfinite]
      exact hlinear _ (Array.mem_of_getElem? (getElem?_linear_ofTerms hi))
    · by_cases hnone : pairWeights s(u, v) terms = []
      · rw [hnone]
        trivial
      · obtain ⟨i, hi⟩ := List.mem_iff_getElem?.mp hu
        obtain ⟨j, hj⟩ := List.mem_iff_getElem?.mp hv
        rw [← isFinite_leftSum_pairWeights_iff hfinite]
        exact hweights _ (hwf.mem_weights_iff.mpr ⟨i, (List.getElem?_eq_some_iff.mp hi).1, j,
          (mem_neighbours_ofTerms hi).mpr ⟨v, hj, hnone, rfl⟩⟩)
  · rintro ⟨hsole, hpair⟩
    refine ⟨fun bias hbias => ?_, fun w hw => ?_⟩
    · obtain ⟨i, hi, rfl⟩ := Array.mem_iff_getElem.mp hbias
      have hlt : i < (varsOf terms).length := by rwa [hwf.size_linear] at hi
      have hget := getElem?_linear_ofTerms (List.getElem?_eq_getElem hlt)
      rw [Array.getElem?_eq_getElem hi, Option.some.injEq] at hget
      rw [hget, isFinite_leftSum_soleWeights_iff hfinite]
      exact hsole _ (List.getElem_mem hlt)
    · obtain ⟨i, hi, j, hmem⟩ := hwf.mem_weights_iff.mp hw
      obtain ⟨v, hv, -, rfl⟩ := (mem_neighbours_ofTerms (List.getElem?_eq_getElem hi)).mp hmem
      rw [isFinite_leftSum_pairWeights_iff hfinite]
      exact hpair _ (List.getElem_mem hi) v (List.mem_of_getElem? hv)

/-- Weights that are less than half a step of the greatest double can be added up without end. -/
theorem isFinite_of_small
    (hsmall : ∀ term ∈ terms, |Decimal.exact term.weight| < 2 ^ (970 : Int)) :
    (ofTerms terms).IsFinite := by
  have hstays (p : Term Float → Bool) : StaysBelow 0 ((terms.filter p).map Term.weight) := by
    refine Decimal.staysBelow_of_small (fun w hw => ?_) rfl
    obtain ⟨term, hterm, rfl⟩ := List.mem_map.mp hw
    have hmem := (List.mem_filter.mp hterm).1
    exact ⟨hfinite term hmem, hsmall term hmem⟩
  exact (isFinite_ofTerms_iff hfinite).mpr ⟨fun v _ => hstays _, fun u _ v _ => hstays _⟩

end Terms

/-! ## Energies -/

section Energies

variable {graph : Graph Float} {state : State}

/-- What the quadratic form adds up for a node that is set, from set nodes only. -/
def setField (graph : Graph Float) (state : State) (i : Nat) : Float :=
  ((graph.neighbours i).filter fun e => state.bit e.1 ≠ 0).foldl (fun sum e => sum + e.2) 0 / 2 +
    graph.linear.getD i 0

/-- The energy of a state, from set nodes only. -/
def energyOfSet (graph : Graph Float) (state : State) : Float :=
  ((List.range graph.size).filter fun i => state.bit i ≠ 0).foldl
    (fun sum i => sum + graph.setField state i) 0

/-- All that is multiplied by the bit of an unset node is finite: the couplings of each node with
    unset ones, and what is added up for each unset node. -/
structure FiniteWhereUnset (graph : Graph Float) (state : State) : Prop where
  weight : ∀ i < graph.size, ∀ e ∈ graph.neighbours i, ¬ state.bit e.1 ≠ 0 → e.2.isFinite = true
  field : ∀ i < graph.size, ¬ state.bit i ≠ 0 → (graph.setField state i).isFinite = true

instance (graph : Graph Float) (state : State) : Decidable (graph.FiniteWhereUnset state) :=
  decidable_of_iff
    ((∀ i < graph.size, ∀ e ∈ graph.neighbours i, ¬ state.bit e.1 ≠ 0 → e.2.isFinite = true) ∧
      ∀ i < graph.size, ¬ state.bit i ≠ 0 → (graph.setField state i).isFinite = true)
    ⟨fun h => ⟨h.1, h.2⟩, fun h => ⟨h.1, h.2⟩⟩

variable (hrows : ∀ i < graph.size, graph.toSparse.row i = graph.neighbours i) {i : Nat}
  (hi : i < graph.size)

include hrows hi

/-- What the matrix makes of the bits of a state is added up from the neighbours. -/
theorem getD_mulVec_eq : (graph.toSparse.mulVec (bits state)).getD i 0 =
    (graph.neighbours i).foldl
      (fun sum e => sum + e.2 * if state.bit e.1 ≠ 0 then 1 else 0) 0 := by
  rw [getD_mulVec graph.toSparse (bits state) hi, hrows i hi]
  simp only [getD_bits]

theorem field_eq_setField
    (hweight : ∀ e ∈ graph.neighbours i, ¬ state.bit e.1 ≠ 0 → e.2.isFinite = true) :
    (graph.toSparse.mulVec (bits state)).getD i 0 / 2 + graph.linear.getD i 0 =
      graph.setField state i := by
  have hgated : ∀ e ∈ graph.neighbours i, Gated (state.bit e.1 ≠ 0) e.2
      (e.2 * if state.bit e.1 ≠ 0 then 1 else 0) := fun e _ => Decimal.mul_gated _ _
  rw [getD_mulVec_eq hrows hi, setField,
    Decimal.foldl_gated hgated hweight Decimal.zero_ne_negativeZero]

theorem isNaN_field {e : Nat × Float} (he : e ∈ graph.neighbours i) (hunset : ¬ state.bit e.1 ≠ 0)
    (hweight : e.2.isFinite = false) :
    ((graph.toSparse.mulVec (bits state)).getD i 0 / 2 + graph.linear.getD i 0).isNaN = true := by
  refine Decimal.isNaN_add (.inl (Decimal.isNaN_div ?_ 2))
  rw [getD_mulVec_eq hrows hi]
  exact Decimal.isNaN_foldl he ((Decimal.mul_gated (state.bit e.1 ≠ 0) e.2).nan hunset hweight)

omit hi
variable (hsize : state.size = graph.size)

include hsize

omit hrows in
/-- The quadratic form adds up what stands at each node times the bit of the node. -/
theorem quadraticForm_eq_foldl : graph.quadraticForm (bits state) =
    (List.range graph.size).foldl (fun sum i => sum + (if state.bit i ≠ 0 then 1 else 0) *
      ((graph.toSparse.mulVec (bits state)).getD i 0 / 2 + graph.linear.getD i 0)) 0 := by
  have hbits : (bits state : Array Float).size = graph.size := by
    simp [bits, hsize]
  simp only [quadraticForm, hbits, getD_bits]

/-- Where all is finite that unset nodes are multiplied with, they add nothing. -/
theorem quadraticForm_of_finiteWhereUnset (hfinite : graph.FiniteWhereUnset state) :
    graph.quadraticForm (bits state) = graph.energyOfSet state := by
  have hfield : ∀ i ∈ List.range graph.size,
      Gated (state.bit i ≠ 0) (graph.setField state i) ((if state.bit i ≠ 0 then 1 else 0) *
        ((graph.toSparse.mulVec (bits state)).getD i 0 / 2 + graph.linear.getD i 0)) := by
    intro i hrange
    have hi := List.mem_range.mp hrange
    rw [field_eq_setField hrows hi (hfinite.weight i hi)]
    exact Decimal.gated_mul _ _
  rw [quadraticForm_eq_foldl hsize, energyOfSet]
  exact Decimal.foldl_gated hfield
    (fun i hrange => hfinite.field i (List.mem_range.mp hrange)) Decimal.zero_ne_negativeZero

/-- Where it is not, the energy is no number. -/
theorem isNaN_quadraticForm (hnot : ¬ graph.FiniteWhereUnset state) :
    (graph.quadraticForm (bits state)).isNaN = true := by
  have hnode {i : Nat} (hi : i < graph.size) {value : Float}
      (hvalue : (graph.toSparse.mulVec (bits state)).getD i 0 / 2 + graph.linear.getD i 0 = value)
      (hterm : ((if state.bit i ≠ 0 then 1 else 0) * value).isNaN = true) :
      (graph.quadraticForm (bits state)).isNaN = true := by
    rw [quadraticForm_eq_foldl hsize]
    refine Decimal.isNaN_foldl (List.mem_range.mpr hi) ?_
    rwa [hvalue]
  by_cases hweight : ∀ i < graph.size, ∀ e ∈ graph.neighbours i,
      ¬ state.bit e.1 ≠ 0 → e.2.isFinite = true
  · have hfield : ¬ ∀ i < graph.size, ¬ state.bit i ≠ 0 →
        (graph.setField state i).isFinite = true := fun h => hnot ⟨hweight, h⟩
    push Not at hfield
    obtain ⟨i, hi, hunset, hinfinite⟩ := hfield
    refine hnode hi (field_eq_setField hrows hi (hweight i hi)) ?_
    exact (Decimal.gated_mul (state.bit i ≠ 0) _).nan (by simpa using hunset)
      (by simpa using hinfinite)
  · push Not at hweight
    obtain ⟨i, hi, e, he, hunset, hinfinite⟩ := hweight
    refine hnode hi rfl ((Decimal.gated_mul (state.bit i ≠ 0) _).isNaN ?_)
    exact isNaN_field hrows hi he (by simpa using hunset) (by simpa using hinfinite)

end Energies

/-! ## The graph of a map -/

/-- The graph of a map with finite weights is finite if and only if the weights of each variable and
    of each pair of variables can be added up in map order without a sum that is beyond all
    doubles.  Weights below `2 ^ 970` always can.

    The bit of an unset node is multiplied with couplings and with what is added up for the node.
    If all of that is finite, the energy of an assignment is that of the nodes that it sets, and
    nothing else enters it.  If anything of it is not finite, the energy is no number. -/
theorem finite_of_build {coefficients : Coefficients} {graph : Graph Float}
    (hbuild : Graph.build Coefficients.readWeight coefficients = .ok graph) :
    ∃ terms, coefficients.readTerms Coefficients.readWeight = .ok terms ∧
      (graph.IsFinite ↔ (∀ v ∈ graph.vars, StaysBelow 0 (soleWeights v terms)) ∧
        ∀ u ∈ graph.vars, ∀ v ∈ graph.vars, StaysBelow 0 (pairWeights s(u, v) terms)) ∧
      ((∀ term ∈ terms, |Decimal.exact term.weight| < 2 ^ (970 : Int)) → graph.IsFinite) ∧
      ∀ assignment state, graph.toState assignment = .ok state →
        (graph.FiniteWhereUnset state →
          graph.assignmentEnergy assignment = .ok (graph.energyOfSet state)) ∧
        (¬ graph.FiniteWhereUnset state →
          ∃ energy, graph.assignmentEnergy assignment = .ok energy ∧ energy.isNaN = true) := by
  have hrows := fun i => row_toSparse_of_build (i := i) hbuild
  obtain ⟨terms, hread, rfl⟩ := build_eq_ok_iff.mp hbuild
  have hfinite := Coefficients.isFinite_of_readTerms hread
  refine ⟨terms, hread, isFinite_ofTerms_iff hfinite, isFinite_of_small hfinite, ?_⟩
  intro assignment state hstate
  have henergy : (ofTerms terms).assignmentEnergy assignment =
      .ok ((ofTerms terms).quadraticForm (bits state)) := by
    simp [assignmentEnergy, hstate, bind, Except.bind, pure, Except.pure]
  have hsize := size_of_toState hstate
  rw [henergy]
  constructor
  · intro hunset
    rw [quadraticForm_of_finiteWhereUnset hrows hsize hunset]
  · exact fun hnot => ⟨_, rfl, isNaN_quadraticForm hrows hsize hnot⟩

end Graph

/-! ## Examples -/

/-- The greatest double. -/
def Decimal.greatest : Float :=
  .ofBits 0x7FEFFFFFFFFFFFFF

open Decimal (greatest)

/-- A bias whose parts are great and have signs in turn. -/
def Coefficients.alternating : Coefficients :=
  [(.text "0", .float greatest), (.text "0,0", .float (-greatest)), (.text "0, 0", .float greatest),
    (.text "0,1", .float 2.0), (.text "1", .float (-1.5))]

def alternatingTerms : List (Term Float) :=
  [⟨.one 0, greatest⟩, ⟨.two 0 0, -greatest⟩, ⟨.two 0 0, greatest⟩, ⟨.two 0 1, 2.0⟩,
    ⟨.one 1, -1.5⟩]

namespace Graph

/-- With signs in turn the parts can be added up.  An assignment that does not set that variable has
    the energy of the other one. -/
theorem finite_of_build_alternating :
    ∃ graph, Graph.build Coefficients.readWeight Coefficients.alternating = .ok graph ∧
      graph.IsFinite ∧ graph.assignmentEnergy [(.int 1, .int 1)] = .ok (-1.5) := by
  have hbuild : Graph.build Coefficients.readWeight Coefficients.alternating =
      .ok (ofTerms alternatingTerms) := rfl
  obtain ⟨terms, hread, hiff, -, henergy⟩ := finite_of_build hbuild
  obtain rfl : terms = alternatingTerms := by
    cases hread
    rfl
  obtain ⟨hunset, -⟩ := henergy [(.int 1, .int 1)] #[0, 1] rfl
  refine ⟨_, hbuild, hiff.mpr (by decide +kernel), ?_⟩
  rw [hunset (by decide +kernel)]
  exact congrArg Except.ok (by decide +kernel)

/-- Two weights that are finite make an infinite bias, or an infinite coupling, and then the
    assignment that sets nothing has an energy that is no number.  So has an assignment for a finite
    graph, if what it sets adds up to an infinity at a node that it does not set. -/
theorem exists_build_not_finite :
    (∃ graph, Graph.build Coefficients.readWeight
        [(.text "0", .float greatest), (.text "0,0", .float greatest)] = .ok graph ∧
      ¬ graph.IsFinite ∧
      ∃ energy, graph.assignmentEnergy [] = .ok energy ∧ energy.isNaN = true) ∧
    (∃ graph, Graph.build Coefficients.readWeight
        [(.text "0,1", .float greatest), (.text "1,0", .float greatest)] = .ok graph ∧
      ¬ graph.IsFinite ∧
      ∃ energy, graph.assignmentEnergy [] = .ok energy ∧ energy.isNaN = true) ∧
    ∃ graph, Graph.build Coefficients.readWeight
        [(.text "0", .float greatest), (.text "0,1", .float greatest)] = .ok graph ∧
      graph.IsFinite ∧
      ∃ energy, graph.assignmentEnergy [(.int 1, .int 1)] = .ok energy ∧ energy.isNaN = true :=
  ⟨⟨ofTerms [⟨.one 0, greatest⟩, ⟨.two 0 0, greatest⟩], rfl, by decide +kernel, _, rfl,
      by decide +kernel⟩,
    ⟨ofTerms [⟨.two 0 1, greatest⟩, ⟨.two 1 0, greatest⟩], rfl, by decide +kernel, _, rfl,
      by decide +kernel⟩,
    ⟨ofTerms [⟨.one 0, greatest⟩, ⟨.two 0 1, greatest⟩], rfl, by decide +kernel, _, rfl,
      by decide +kernel⟩⟩

end Graph

end Annealing
