import Annealing.Anneal.Flip
import Annealing.Proofs.Problem.Terms

/-! # Images of graphs

The weights of a graph may be sent on by a function that keeps sums, such as the product with a
constant.  Building a graph and taking energies commute with it.

* `build_image` — a map with other weights under the same keys has the image of the graph.
* `energy_image`, `flipDelta_image` — energies and their changes are sent on as well.
-/

namespace Annealing

variable {ω ω' : Type} {g : ω → ω'}

/-- A function of weights that keeps zero, sums and negatives. -/
structure KeepsSums [OfNat ω 0] [Add ω] [Neg ω] [OfNat ω' 0] [Add ω'] [Neg ω'] (g : ω → ω') :
    Prop where
  zero : g 0 = 0
  add : ∀ a b, g (a + b) = g a + g b
  neg : ∀ a, g (-a) = -g a

namespace Graph

/-- The same graph, its weights sent on by a function. -/
def image (g : ω → ω') (graph : Graph ω) : Graph ω' where
  vars := graph.vars
  linear := graph.linear.map g
  offsets := graph.offsets
  counts := graph.counts
  targets := graph.targets
  weights := graph.weights.map g

@[simp] theorem size_image (g : ω → ω') (graph : Graph ω) : (graph.image g).size = graph.size :=
  rfl

theorem image_id (graph : Graph ω) : graph.image id = graph := by
  simp [image]

variable [OfNat ω 0] [Add ω] [Neg ω] [OfNat ω' 0] [Add ω'] [Neg ω']

/-! ## Building -/

section Build

theorem bookBias_image (hkeeps : KeepsSums g) (sums : Array ω) (entry : Place × ω) :
    bookBias (sums.map g) (entry.map id g) = (bookBias sums entry).map g := by
  obtain ⟨place, amount⟩ := entry
  cases place with
  | coupling i j => rfl
  | bias i =>
    apply Array.ext_getElem?
    intro k
    simp only [bookBias, Prod.map, id_eq, Array.getElem?_modify, Array.getElem?_map]
    split
    · cases sums[k]? with
      | none => rfl
      | some sum => simp [hkeeps.add]
    · rfl

theorem biases_image (hkeeps : KeepsSums g) (n : Nat) (entries : List (Place × ω)) :
    biases n (entries.map (Prod.map id g)) = (biases n entries).map g := by
  have hzero : Array.replicate n (0 : ω') = (Array.replicate n 0).map g := by
    simp [hkeeps.zero]
  rw [biases, List.foldl_map, hzero]
  exact List.foldl_hom (Array.map g) (bookBias_image hkeeps)

theorem book_image {κ : Type} [DecidableEq κ] (hkeeps : KeepsSums g) (key : κ) (amount : ω)
    (ledger : Ledger κ ω) :
    Ledger.book key (g amount) (ledger.map (Prod.map id g)) =
      (ledger.book key amount).map (Prod.map id g) := by
  induction ledger with
  | nil => simp [Ledger.book, hkeeps.add, hkeeps.zero]
  | cons entry rest ih =>
    obtain ⟨k, total⟩ := entry
    by_cases hk : k = key
    · simp [Ledger.book, hk, hkeeps.add]
    · simp [Ledger.book, hk, ih]

theorem bookCoupling_image (hkeeps : KeepsSums g) (ledger : Ledger (Nat × Nat) ω)
    (entry : Place × ω) :
    bookCoupling (ledger.map (Prod.map id g)) (entry.map id g) =
      (bookCoupling ledger entry).map (Prod.map id g) := by
  obtain ⟨place, amount⟩ := entry
  cases place with
  | bias i => rfl
  | coupling i j => exact book_image hkeeps (i, j) amount ledger

theorem couplings_image (hkeeps : KeepsSums g) (entries : List (Place × ω)) :
    couplings (entries.map (Prod.map id g)) = (couplings entries).map (Prod.map id g) := by
  have hempty : ([] : Ledger (Nat × Nat) ω') = ([] : Ledger (Nat × Nat) ω).map (Prod.map id g) :=
    rfl
  rw [couplings, List.foldl_map, hempty]
  exact List.foldl_hom (List.map (Prod.map id g)) (bookCoupling_image hkeeps)

omit [OfNat ω 0] [Add ω] [Neg ω] [OfNat ω' 0] [Add ω'] [Neg ω'] in
/-- The neighbours of a node are found and sorted by their nodes alone. -/
theorem row_image (g : ω → ω') (ledger : Ledger (Nat × Nat) ω) (i : Nat) :
    row (ledger.map (Prod.map id g)) i = (row ledger i).map (Prod.map id g) := by
  have hends : (ledger.map (Prod.map id g)).filterMap (otherEnd? i) =
      (ledger.filterMap (otherEnd? i)).map (Prod.map id g) := by
    rw [List.filterMap_map, List.map_filterMap]
    congr 1
    funext coupling
    simp only [Function.comp_apply, otherEnd?, Prod.map, id_eq]
    split
    · rfl
    · split <;> rfl
  rw [row, row, hends, List.map_mergeSort]
  intro a _ b _
  rfl

omit [OfNat ω 0] [Add ω] [Neg ω] [OfNat ω' 0] [Add ω'] [Neg ω'] in
theorem ofRows_image (g : ω → ω') (vars : List Int) (linear : Array ω)
    (rows : List (List (Nat × ω))) :
    ofRows vars (linear.map g) (rows.map (List.map (Prod.map id g))) =
      (ofRows vars linear rows).image g := by
  have hlengths : (rows.map (List.map (Prod.map id g))).map List.length =
      rows.map List.length := by
    simp
  simp [ofRows, image, hlengths, ← List.map_flatten, Function.comp_def]

theorem ofTerms_image (hkeeps : KeepsSums g) (terms : List (Term ω)) :
    ofTerms (terms.map (Term.image g)) = (ofTerms terms).image g := by
  have hvars : varsOf (terms.map (Term.image g)) = varsOf terms := by
    simp [varsOf, List.flatMap_map, Term.image]
  have hentries : (terms.map (Term.image g)).map
        (fun term => (term.key.place (varsOf terms).idxOf, term.weight)) =
      (terms.map fun term => (term.key.place (varsOf terms).idxOf, term.weight)).map
        (Prod.map id g) := by
    simp [Term.image]
  have hrows (entries : List (Place × ω)) (n : Nat) :
      (List.range n).map (row ((couplings entries).map (Prod.map id g))) =
        ((List.range n).map (row (couplings entries))).map (List.map (Prod.map id g)) := by
    simp [row_image]
  simp only [ofTerms, hvars, hentries, biases_image hkeeps, couplings_image hkeeps, hrows,
    ofRows_image]

/-- A map with other weights under the same keys has a graph if the first map has, with other
    weights at the same places. -/
theorem build_image {weigh : Value → Value → Except Fault ω}
    {weigh' : Value → Value → Except Fault ω'} {coefficients coefficients' : Coefficients}
    (hkeeps : KeepsSums g)
    (hentries : Coefficients.Reweighed g weigh weigh' coefficients coefficients') :
    Graph.build weigh' coefficients' = (Graph.build weigh coefficients).map (image g) := by
  unfold Graph.build
  rw [Coefficients.readTerms_image hentries]
  cases coefficients.readTerms weigh with
  | error fault => rfl
  | ok terms => exact congrArg Except.ok (ofTerms_image hkeeps terms)

end Build

/-! ## Energies -/

section Energies

variable (hkeeps : KeepsSums g) (graph : Graph ω) (state : State)

include hkeeps

theorem linear_image (i : Nat) : (graph.image g).linear.getD i 0 = g (graph.linear.getD i 0) := by
  simp [image, Array.getD_eq_getD_getElem?, ← hkeeps.zero, Option.getD_map]

theorem neighbours_image (i : Nat) :
    (graph.image g).neighbours i = (graph.neighbours i).map (Prod.map id g) := by
  have hweight (k : Nat) : (graph.weights.map g).getD k 0 = g (graph.weights.getD k 0) := by
    simp [Array.getD_eq_getD_getElem?, ← hkeeps.zero, Option.getD_map]
  simp only [neighbours, List.map_map]
  apply List.map_congr_left
  intro k _
  exact congrArg (Prod.mk _) (hweight k)

theorem localField_image (i : Nat) :
    (graph.image g).localField state i = g (graph.localField state i) := by
  unfold localField
  rw [neighbours_image hkeeps, linear_image hkeeps, List.foldl_map]
  apply List.foldl_hom g
  intro field neighbour
  simp only [Prod.map, id_eq]
  split
  · exact (hkeeps.add _ _).symm
  · rfl

theorem addNode_image (energy : ω) (i : Nat) :
    (graph.image g).addNode state (g energy) i = g (graph.addNode state energy i) := by
  unfold addNode
  split
  · rw [neighbours_image hkeeps, linear_image hkeeps, List.foldl_map, ← hkeeps.add]
    apply List.foldl_hom g
    intro energy neighbour
    simp only [Prod.map, id_eq]
    split
    · exact (hkeeps.add _ _).symm
    · rfl
  · rfl

theorem energy_image : (graph.image g).energy state = g (graph.energy state) := by
  unfold energy
  rw [← hkeeps.zero]
  exact List.foldl_hom g (addNode_image hkeeps graph state)

theorem flipDelta_image (i : Nat) :
    (graph.image g).flipDelta state i = g (graph.flipDelta state i) := by
  rw [flipDelta, flipDelta, localField_image hkeeps]
  unfold deltaOf
  split
  · rfl
  · exact (hkeeps.neg _).symm

end Energies

end Graph

end Annealing
