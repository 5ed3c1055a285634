import Annealing.Proofs.Graph.States
import Annealing.Proofs.Graph.WellFormed
import Mathlib.Tactic.Abel

/-! # The energy of a set of nodes

The energy of a state is a function of the set of its nodes that are set: their biases and the
weights of the couplings inside the set.  `setEnergy` says so without arrays, slots or folds, and
everything that is proved about energies goes through it:

* `energy_eq_setEnergy` — the fold over all slots computes `setEnergy`.
* `localField_eq` — the local field of a node is its bias and its couplings to the set.
* `setEnergy_insert` — that is what the node adds when it joins the set.
* `energy_flip` — so a flip changes the energy by `flipDelta`.
-/

namespace Annealing.Graph

open State (Binary support)

variable {ω : Type}

section Sums

variable [AddCommMonoid ω]

/-! ## Folds as sums -/

/-- The sum of the weights whose node meets a condition. -/
def weightWhere (neighbours : List (Nat × ω)) (p : Nat → Prop) [DecidablePred p] : ω :=
  (neighbours.map fun neighbour => if p neighbour.1 then neighbour.2 else 0).sum

theorem foldl_weights (neighbours : List (Nat × ω)) (p : Nat → Prop) [DecidablePred p] (start : ω) :
    neighbours.foldl (fun sum neighbour => if p neighbour.1 then sum + neighbour.2 else sum) start =
      start + weightWhere neighbours p := by
  induction neighbours generalizing start with
  | nil => simp [weightWhere]
  | cons neighbour rest ih =>
    rw [List.foldl_cons, ih]
    simp only [weightWhere, List.map_cons, List.sum_cons]
    split
    · exact add_assoc _ _ _
    · rw [zero_add]

theorem weightWhere_congr {neighbours : List (Nat × ω)} {p q : Nat → Prop} [DecidablePred p]
    [DecidablePred q] (h : ∀ neighbour ∈ neighbours, p neighbour.1 ↔ q neighbour.1) :
    weightWhere neighbours p = weightWhere neighbours q := by
  unfold weightWhere
  congr 1
  refine List.map_congr_left fun neighbour hmem => ?_
  exact if_congr (h neighbour hmem) rfl rfl

/-- The weights inside a set of nodes, node by node. -/
theorem weightWhere_mem (neighbours : List (Nat × ω)) (s : Finset Nat) :
    weightWhere neighbours (· ∈ s) = ∑ j ∈ s, weightWhere neighbours (· = j) := by
  induction neighbours with
  | nil => simp [weightWhere]
  | cons neighbour rest ih =>
    simp only [weightWhere, List.map_cons, List.sum_cons] at ih ⊢
    rw [ih, Finset.sum_add_distrib, Finset.sum_ite_eq]

/-! ## Coupling weights -/

/-- The total weight between two nodes. -/
def pairWeight (graph : Graph ω) (i j : Nat) : ω :=
  weightWhere (graph.neighbours i) (· = j)

theorem weightWhere_of_mem {neighbours : List (Nat × ω)}
    (hnodup : (neighbours.map Prod.fst).Nodup) {j : Nat} {w : ω} (hmem : (j, w) ∈ neighbours) :
    weightWhere neighbours (· = j) = w := by
  induction neighbours with
  | nil => simp at hmem
  | cons neighbour rest ih =>
    obtain ⟨hhead, hrest⟩ := List.nodup_cons.mp hnodup
    have habsent : ∀ {k v}, (k, v) ∈ rest → k ≠ neighbour.1 := by
      rintro k v hkv rfl
      exact hhead (List.mem_map.mpr ⟨_, hkv, rfl⟩)
    rcases List.mem_cons.mp hmem with rfl | hmem
    · have hzero : weightWhere rest (· = j) = 0 := by
        refine List.sum_eq_zero fun v hv => ?_
        obtain ⟨⟨k, u⟩, hk, rfl⟩ := List.mem_map.mp hv
        exact if_neg (habsent hk)
      simp only [weightWhere] at hzero
      simp [weightWhere, hzero]
    · have hstep := ih hrest hmem
      simp only [weightWhere] at hstep
      simp [weightWhere, hstep, (habsent hmem).symm]

theorem pairWeight_of_mem {graph : Graph ω} (hwf : graph.WellFormed) {i j : Nat} {w : ω}
    (hmem : (j, w) ∈ graph.neighbours i) : graph.pairWeight i j = w :=
  weightWhere_of_mem ((hwf.targets_ascending i).imp fun h => h.ne) hmem

theorem pairWeight_of_forall_not_mem {graph : Graph ω} {i j : Nat}
    (hnone : ∀ w, (j, w) ∉ graph.neighbours i) : graph.pairWeight i j = 0 := by
  refine List.sum_eq_zero fun v hv => ?_
  obtain ⟨⟨k, u⟩, hk, rfl⟩ := List.mem_map.mp hv
  exact if_neg fun hkj : k = j => hnone u (hkj ▸ hk)

theorem pairWeight_symm {graph : Graph ω} (hwf : graph.WellFormed) (i j : Nat) :
    graph.pairWeight i j = graph.pairWeight j i := by
  by_cases hmem : ∃ w, (j, w) ∈ graph.neighbours i
  · obtain ⟨w, hmem⟩ := hmem
    rw [pairWeight_of_mem hwf hmem, pairWeight_of_mem hwf ((hwf.symmetric i j w).mp hmem)]
  · have hnone : ∀ w, (j, w) ∉ graph.neighbours i := fun w h => hmem ⟨w, h⟩
    rw [pairWeight_of_forall_not_mem hnone, pairWeight_of_forall_not_mem
      fun w h => hnone w ((hwf.symmetric i j w).mpr h)]

theorem pairWeight_self {graph : Graph ω} (hwf : graph.WellFormed) (i : Nat) :
    graph.pairWeight i i = 0 :=
  pairWeight_of_forall_not_mem fun _ hmem => hwf.target_ne i _ hmem rfl

/-! ## The energy of a set -/

/-- The energy of a set of nodes: the bias of each, and each coupling between two of them. -/
def setEnergy (graph : Graph ω) (s : Finset Nat) : ω :=
  ∑ i ∈ s, (graph.linear.getD i 0 + ∑ j ∈ s with i < j, graph.pairWeight i j)

theorem localField_eq {graph : Graph ω} (hwf : graph.WellFormed) (state : State) (i : Nat) :
    graph.localField state i =
      graph.linear.getD i 0 + ∑ j ∈ state.support graph.size, graph.pairWeight i j := by
  have hsupport : ∀ neighbour ∈ graph.neighbours i,
      state.bit neighbour.1 = 1 ↔ neighbour.1 ∈ state.support graph.size := by
    intro neighbour hmem
    rw [State.mem_support, and_iff_right (hwf.target_lt i neighbour hmem)]
  rw [localField, foldl_weights (graph.neighbours i) (state.bit · = 1),
    weightWhere_congr hsupport, weightWhere_mem]
  rfl

/-- What a node that is set brings to the energy: its bias and its couplings to later nodes. -/
theorem addNode_eq {graph : Graph ω} (hwf : graph.WellFormed) (state : State) (energy : ω)
    (i : Nat) : graph.addNode state energy i = energy +
      if state.bit i = 1 then graph.linear.getD i 0 +
        ∑ j ∈ state.support graph.size with i < j, graph.pairWeight i j
      else 0 := by
  have hlater : ∀ neighbour ∈ graph.neighbours i, (i < neighbour.1 ∧ state.bit neighbour.1 = 1) ↔
      neighbour.1 ∈ (state.support graph.size).filter (i < ·) := by
    intro neighbour hmem
    have hlt := hwf.target_lt i neighbour hmem
    rw [Finset.mem_filter, State.mem_support]
    tauto
  unfold addNode
  split
  · simp only [Bool.and_eq_true, decide_eq_true_eq]
    rw [foldl_weights (graph.neighbours i) (fun j => i < j ∧ state.bit j = 1),
      weightWhere_congr hlater, weightWhere_mem, add_assoc]
    rfl
  · rw [add_zero]

theorem energy_eq_setEnergy {graph : Graph ω} (hwf : graph.WellFormed) {state : State}
    (hsize : state.size = graph.size) :
    graph.energy state = graph.setEnergy (state.support graph.size) := by
  -- The fold starts anywhere here, so that the induction goes through.
  have hfold : ∀ (nodes : List Nat) (energy : ω), nodes.foldl (graph.addNode state) energy =
      energy + (nodes.map fun i => if state.bit i = 1 then graph.linear.getD i 0 +
        ∑ j ∈ state.support graph.size with i < j, graph.pairWeight i j else 0).sum := by
    intro nodes
    induction nodes with
    | nil => simp
    | cons i nodes ih =>
      intro energy
      rw [List.foldl_cons, ih, addNode_eq hwf, List.map_cons, List.sum_cons, add_assoc]
  rw [energy, hfold, zero_add, hsize, setEnergy]
  change ∑ i ∈ Finset.range graph.size, _ = _
  rw [← Finset.sum_filter]
  rfl

/-- A node that joins a set adds its bias and its couplings to all of the set: those that were
    counted at the node itself, and those that were counted at the other end. -/
theorem setEnergy_insert {graph : Graph ω} (hwf : graph.WellFormed) {s : Finset Nat} {i : Nat}
    (hi : i ∉ s) : graph.setEnergy (insert i s) =
      graph.setEnergy s + (graph.linear.getD i 0 + ∑ j ∈ s, graph.pairWeight i j) := by
  have hpairs : ∑ j ∈ s, graph.pairWeight i j =
      ∑ j ∈ s with i < j, graph.pairWeight i j +
        ∑ j ∈ s, if j < i then graph.pairWeight j i else 0 := by
    rw [Finset.sum_filter, ← Finset.sum_add_distrib]
    refine Finset.sum_congr rfl fun j hj => ?_
    have hji : j ≠ i := fun h => hi (h ▸ hj)
    rcases Nat.lt_or_gt_of_ne hji with hlt | hgt
    · rw [if_neg hlt.not_gt, if_pos hlt, zero_add, pairWeight_symm hwf]
    · rw [if_pos hgt, if_neg (Nat.not_lt.mpr hgt.le), add_zero]
  have hother : ∀ k ∈ s, ∑ j ∈ insert i s with k < j, graph.pairWeight k j =
      ∑ j ∈ s with k < j, graph.pairWeight k j +
        if k < i then graph.pairWeight k i else 0 := by
    intro k _
    rw [Finset.sum_filter, Finset.sum_insert hi, ← Finset.sum_filter, add_comm]
  have hself : ∑ j ∈ insert i s with i < j, graph.pairWeight i j =
      ∑ j ∈ s with i < j, graph.pairWeight i j := by
    rw [Finset.sum_filter, Finset.sum_insert hi, if_neg (Nat.lt_irrefl i), zero_add,
      ← Finset.sum_filter]
  calc graph.setEnergy (insert i s)
      = (graph.linear.getD i 0 + ∑ j ∈ s with i < j, graph.pairWeight i j) +
          ∑ k ∈ s, (graph.linear.getD k 0 + (∑ j ∈ s with k < j, graph.pairWeight k j +
            if k < i then graph.pairWeight k i else 0)) := by
        rw [setEnergy, Finset.sum_insert hi, hself]
        congr 1
        exact Finset.sum_congr rfl fun k hk => by rw [hother k hk]
    _ = (graph.linear.getD i 0 + ∑ j ∈ s with i < j, graph.pairWeight i j) +
          (graph.setEnergy s + ∑ k ∈ s, if k < i then graph.pairWeight k i else 0) := by
        simp only [setEnergy, Finset.sum_add_distrib, add_assoc]
    _ = graph.setEnergy s + (graph.linear.getD i 0 + ∑ j ∈ s, graph.pairWeight i j) := by
        rw [hpairs]
        abel

end Sums

/-! ## Flips -/

section Flips

variable [AddCommGroup ω] {graph : Graph ω}

/-- Flipping a bit changes the energy by the change that its local field announces. -/
theorem energy_flip (hwf : graph.WellFormed) {state : State} (hbinary : Binary graph.size state)
    {i : Nat} (hi : i < graph.size) :
    graph.energy (state.flip i) = graph.energy state + graph.flipDelta state i := by
  have hflip := hbinary.flip hi
  rw [energy_eq_setEnergy hwf hbinary.size_eq, energy_eq_setEnergy hwf hflip.size_eq, flipDelta,
    deltaOf, localField_eq hwf]
  rcases hbinary.zero_or_one i with hzero | hone
  -- The node joins the set, and its local field is what it adds.
  · have houtside : i ∉ support graph.size state := by simp [hzero]
    rw [if_pos hzero, State.support_flip_of_zero hbinary hi hzero, setEnergy_insert hwf houtside]
  -- The node leaves the set.  It is no neighbour of itself, so the sum over the set is that over
  -- the rest.
  · have hinside : i ∈ support graph.size state := by simp [hone, hi]
    have hjoin := setEnergy_insert hwf (Finset.notMem_erase i (support graph.size state))
    have hfield := Finset.add_sum_erase (support graph.size state) (graph.pairWeight i) hinside
    rw [pairWeight_self hwf, zero_add] at hfield
    rw [Finset.insert_erase hinside, hfield] at hjoin
    rw [if_neg (by rw [hone]; decide), State.support_flip_of_one hbinary hi hone, hjoin]
    abel

end Flips

end Annealing.Graph
