import Annealing.Proofs.Graph.Contents
import Annealing.Proofs.Graph.Layout
import Annealing.Proofs.Problem.Exact
import Mathlib.Algebra.BigOperators.Group.Finset.Piecewise
import Mathlib.Data.List.GetD
import Mathlib.Data.Sym.Sym2

/-! # Well-formed graphs

`Graph.WellFormed` is what every later result asks of a graph: arrays that fit together, neighbour
lists that fill the flat arrays and are ascending, and couplings that stand at both of their ends.

* `wellFormed_ofTerms` — the graph of any terms is well-formed.
* `edgeCount_ofTerms` — it has two slots for each pair of variables that some key names.
-/

namespace Annealing

/-- What holds of every graph that is built. -/
structure Graph.WellFormed {ω : Type} [OfNat ω 0] (graph : Graph ω) : Prop where
  ascending : graph.vars.Pairwise (· < ·)
  size_linear : graph.linear.size = graph.size
  size_offsets : graph.offsets.size = graph.size
  size_counts : graph.counts.size = graph.size
  size_weights : graph.weights.size = graph.edgeCount
  -- The slots of all nodes, in order, are all slots there are.
  tiling : (List.range graph.size).flatMap graph.slots = List.range graph.edgeCount
  target_lt : ∀ i, ∀ neighbour ∈ graph.neighbours i, neighbour.1 < graph.size
  target_ne : ∀ i, ∀ neighbour ∈ graph.neighbours i, neighbour.1 ≠ i
  targets_ascending : ∀ i, ((graph.neighbours i).map Prod.fst).Pairwise (· < ·)
  symmetric : ∀ i j w, (j, w) ∈ graph.neighbours i ↔ (i, w) ∈ graph.neighbours j

namespace Graph

variable {ω : Type}

/-- Each slot belongs to a node. -/
theorem WellFormed.lt_edgeCount_iff [OfNat ω 0] {graph : Graph ω} (hwf : graph.WellFormed)
    {k : Nat} : k < graph.edgeCount ↔ ∃ i < graph.size, k ∈ graph.slots i := by
  rw [← List.mem_range, ← hwf.tiling, List.mem_flatMap]
  simp only [List.mem_range]

/-! ## Rows -/

/-- The couplings of a ledger lie among `n` nodes, and no pair has two. -/
structure Booked (n : Nat) (ledger : Ledger (Nat × Nat) ω) : Prop where
  nodup : ledger.keys.Nodup
  within : ∀ coupling ∈ ledger, coupling.1.1 < coupling.1.2 ∧ coupling.1.2 < n

theorem otherEnd?_eq_some_iff {i j : Nat} {w : ω} {coupling : (Nat × Nat) × ω} :
    otherEnd? i coupling = some (j, w) ↔
      coupling = ((i, j), w) ∨ (j ≠ i ∧ coupling = ((j, i), w)) := by
  obtain ⟨⟨a, b⟩, v⟩ := coupling
  unfold otherEnd?
  split
  · rename_i ha
    subst ha
    simp only [Option.some.injEq, Prod.mk.injEq, true_and]
    constructor
    · exact Or.inl
    · rintro (h | ⟨hne, ⟨rfl, -⟩, -⟩)
      · exact h
      · exact absurd rfl hne
  · split
    · rename_i ha hb
      subst hb
      simp only [Option.some.injEq, Prod.mk.injEq, and_true]
      constructor
      · rintro ⟨rfl, rfl⟩
        exact .inr ⟨ha, rfl, rfl⟩
      · rintro (⟨⟨rfl, -⟩, -⟩ | ⟨-, h⟩)
        · exact absurd rfl ha
        · exact h
    · rename_i ha hb
      simp only [reduceCtorEq, Prod.mk.injEq, false_iff, not_or, not_and]
      exact ⟨fun h => absurd h.1 ha, fun _ h => absurd h.2 hb⟩

variable {n : Nat} {ledger : Ledger (Nat × Nat) ω}

/-- A row holds the other end of each coupling of its node. -/
theorem mem_row (hbooked : Booked n ledger) {i j : Nat} {w : ω} :
    (j, w) ∈ row ledger i ↔ ((i, j), w) ∈ ledger ∨ ((j, i), w) ∈ ledger := by
  simp only [row, List.mem_mergeSort, List.mem_filterMap, otherEnd?_eq_some_iff]
  constructor
  · rintro ⟨coupling, hmem, rfl | ⟨-, rfl⟩⟩
    · exact .inl hmem
    · exact .inr hmem
  · rintro (hmem | hmem)
    · exact ⟨_, hmem, .inl rfl⟩
    · exact ⟨_, hmem, .inr ⟨(hbooked.within _ hmem).1.ne, rfl⟩⟩

theorem row_symmetric (hbooked : Booked n ledger) {i j : Nat} {w : ω} :
    (j, w) ∈ row ledger i ↔ (i, w) ∈ row ledger j := by
  rw [mem_row hbooked, mem_row hbooked, or_comm]

theorem row_lt_and_ne (hbooked : Booked n ledger) {i : Nat} {neighbour : Nat × ω}
    (hmem : neighbour ∈ row ledger i) : neighbour.1 < n ∧ neighbour.1 ≠ i := by
  obtain ⟨j, w⟩ := neighbour
  rcases (mem_row hbooked).mp hmem with hmem | hmem
  · obtain ⟨hlt, hn⟩ := hbooked.within _ hmem
    exact ⟨hn, hlt.ne'⟩
  · obtain ⟨hlt, hn⟩ := hbooked.within _ hmem
    exact ⟨hlt.trans hn, hlt.ne⟩

/-- Two couplings that share a node have different other ends: the pair of both ends decides
    which of them comes first. -/
theorem otherEnds_ne (hbooked : Booked n ledger) (i : Nat) :
    (ledger.filterMap (otherEnd? i)).Pairwise fun a b => a.1 ≠ b.1 := by
  rw [List.pairwise_filterMap]
  have hkeys : ledger.Pairwise fun c d => c.1 ≠ d.1 := List.pairwise_map.mp hbooked.nodup
  refine hkeys.imp_of_mem fun {c d} hc hd hne a ha b hb hab => ?_
  obtain ⟨j, v⟩ := a
  obtain ⟨k, w⟩ := b
  obtain rfl : j = k := hab
  have hcwithin := hbooked.within c hc
  have hdwithin := hbooked.within d hd
  rcases otherEnd?_eq_some_iff.mp ha with rfl | ⟨-, rfl⟩ <;>
    rcases otherEnd?_eq_some_iff.mp hb with rfl | ⟨-, rfl⟩ <;>
    simp only [ne_eq, not_true_eq_false] at hne hcwithin hdwithin
  · omega
  · omega

theorem row_ascending (hbooked : Booked n ledger) (i : Nat) :
    ((row ledger i).map Prod.fst).Pairwise (· < ·) := by
  have hsorted : (row ledger i).Pairwise fun a b => a.1 ≤ b.1 := by
    have htrans : ∀ a b c : Nat × ω, decide (a.1 ≤ b.1) = true → decide (b.1 ≤ c.1) = true →
        decide (a.1 ≤ c.1) = true := by
      intro a b c
      simp only [decide_eq_true_eq]
      exact Nat.le_trans
    have htotal : ∀ a b : Nat × ω, (decide (a.1 ≤ b.1) || decide (b.1 ≤ a.1)) = true := by
      intro a b
      simp only [Bool.or_eq_true, decide_eq_true_eq]
      exact Nat.le_total _ _
    have hsort := List.pairwise_mergeSort htrans htotal (ledger.filterMap (otherEnd? i))
    simpa only [row, decide_eq_true_eq] using hsort
  have hdistinct : (row ledger i).Pairwise fun a b => a.1 ≠ b.1 :=
    ((List.mergeSort_perm _ _).pairwise_iff fun h => h.symm).mpr (otherEnds_ne hbooked i)
  rw [List.pairwise_map]
  exact (hsorted.and hdistinct).imp fun h => lt_of_le_of_ne h.1 h.2

/-- Each coupling stands in two rows. -/
theorem sum_length_row (hbooked : Booked n ledger) :
    ((List.range n).map fun i => (row ledger i).length).sum = 2 * ledger.length := by
  have hsum : ∀ f : Nat → Nat, ((List.range n).map f).sum = ∑ i ∈ Finset.range n, f i :=
    fun f => rfl
  rw [hsum]
  simp only [row, List.length_mergeSort]
  have hwithin := hbooked.within
  clear hbooked hsum
  induction ledger with
  | nil => simp
  | cons coupling rest ih =>
    obtain ⟨⟨a, b⟩, w⟩ := coupling
    obtain ⟨hab, hbn⟩ : a < b ∧ b < n := hwithin _ List.mem_cons_self
    have hrest := ih fun c hc => hwithin c (List.mem_cons_of_mem _ hc)
    have hends : ∀ i, (List.filterMap (otherEnd? i) (((a, b), w) :: rest)).length =
        ((if i = a then 1 else 0) + if i = b then 1 else 0) +
          (List.filterMap (otherEnd? i) rest).length := by
      intro i
      by_cases hia : i = a
      · subst hia
        simp [otherEnd?, hab.ne, Nat.add_comm]
      · by_cases hib : i = b
        · subst hib
          simp [otherEnd?, hab.ne, hab.ne', Nat.add_comm]
        · simp [otherEnd?, hia, hib, Ne.symm hia, Ne.symm hib]
    simp only [hends, Finset.sum_add_distrib, hrest, Finset.sum_ite_eq', Finset.mem_range,
      hbn, hab.trans hbn, if_true, List.length_cons]
    omega

/-! ## Entries of terms -/

section Terms

/-- The entries of terms among the nodes of their variables. -/
def entriesOf (terms : List (Term ω)) : List (Place × ω) :=
  terms.map fun term => (term.key.place ((varsOf terms).idxOf ·), term.weight)

/-- The couplings of terms among the nodes of their variables. -/
def ledgerOf [OfNat ω 0] [Add ω] (terms : List (Term ω)) : Ledger (Nat × Nat) ω :=
  couplings (entriesOf terms)

theorem within_of_mem_entriesOf {terms : List (Term ω)} {entry : Place × ω}
    (hmem : entry ∈ entriesOf terms) : entry.1.Within (varsOf terms).length := by
  obtain ⟨term, hterm, rfl⟩ := List.mem_map.mp hmem
  exact Key.place_within fun v hv => mem_varsOf.mpr ⟨term, hterm, hv⟩

variable [OfNat ω 0] [Add ω] (terms : List (Term ω))

theorem booked_ledgerOf : Booked (varsOf terms).length (ledgerOf terms) where
  nodup := nodup_keys_couplings _
  within := by
    rintro ⟨⟨i, j⟩, w⟩ hmem
    have hkey : (i, j) ∈ (ledgerOf terms).keys := List.mem_map_of_mem hmem
    obtain ⟨entry, hentry, hplace⟩ := mem_keys_couplings_iff.mp hkey
    have hwithin := within_of_mem_entriesOf hentry
    rw [hplace] at hwithin
    exact hwithin

theorem ofTerms_eq_ofRows : ofTerms terms =
    ofRows (varsOf terms) (biases (varsOf terms).length (entriesOf terms))
      ((List.range (varsOf terms).length).map (row (ledgerOf terms))) := rfl

theorem linear_ofTerms :
    (ofTerms terms).linear = biases (varsOf terms).length (entriesOf terms) := rfl

@[simp] theorem size_ofTerms : (ofTerms terms).size = (varsOf terms).length := rfl

@[simp] theorem vars_ofTerms : (ofTerms terms).vars = varsOf terms := rfl

/-- The neighbours of a node are the other ends of its couplings, in order. -/
theorem neighbours_ofTerms (i : Nat) :
    (ofTerms terms).neighbours i = row (ledgerOf terms) i := by
  rw [ofTerms_eq_ofRows]
  by_cases hi : i < (varsOf terms).length
  · rw [neighbours_ofRows _ _ _ (by simpa using hi)]
    simp
  · rw [neighbours_ofRows_of_le _ _ _ (by simpa using hi)]
    refine (List.eq_nil_iff_forall_not_mem.mpr ?_).symm
    rintro ⟨j, w⟩ hmem
    have hother := row_lt_and_ne (booked_ledgerOf terms)
      ((row_symmetric (booked_ledgerOf terms)).mp hmem)
    exact hi hother.1

theorem wellFormed_ofTerms : (ofTerms terms).WellFormed where
  ascending := ascending_pairwise _
  size_linear := by rw [linear_ofTerms, size_biases, size_ofTerms]
  size_offsets := by simp [ofTerms_eq_ofRows, ofRows, size]
  size_counts := by simp [ofTerms_eq_ofRows, ofRows, size]
  size_weights := by
    simp only [ofTerms_eq_ofRows, ofRows, edgeCount, List.size_toArray, List.length_map]
  tiling := by
    have htiling := flatMap_slots_ofRows (varsOf terms)
      (biases (varsOf terms).length (entriesOf terms))
      ((List.range (varsOf terms).length).map (row (ledgerOf terms)))
    rwa [List.length_map, List.length_range] at htiling
  target_lt i neighbour hmem := by
    rw [neighbours_ofTerms] at hmem
    exact (row_lt_and_ne (booked_ledgerOf terms) hmem).1
  target_ne i neighbour hmem := by
    rw [neighbours_ofTerms] at hmem
    exact (row_lt_and_ne (booked_ledgerOf terms) hmem).2
  targets_ascending i := by
    rw [neighbours_ofTerms]
    exact row_ascending (booked_ledgerOf terms) i
  symmetric i j w := by
    rw [neighbours_ofTerms, neighbours_ofTerms]
    exact row_symmetric (booked_ledgerOf terms)

end Terms

end Graph

/-! ## Named pairs -/

/-- The unordered pair of different variables that a key names, if it names one. -/
def Key.pair? : Key → Option (Sym2 Int)
  | one _ => none
  | two i j => if i = j then none else some s(i, j)

/-- The distinct unordered pairs of different variables that keys name. -/
def namedPairs (keys : List Key) : Finset (Sym2 Int) :=
  (keys.filterMap Key.pair?).toFinset

namespace Graph

variable {ω : Type}

/-- The pair of variables of two nodes. -/
def varPair (vars : List Int) (nodes : Nat × Nat) : Sym2 Int :=
  s(vars.getD nodes.1 0, vars.getD nodes.2 0)

theorem varPair_injOn {vars : List Int} (hascending : vars.Pairwise (· < ·))
    {p q : Nat × Nat} (hp : p.1 < p.2 ∧ p.2 < vars.length) (hq : q.1 < q.2 ∧ q.2 < vars.length)
    (hpair : varPair vars p = varPair vars q) : p = q := by
  obtain ⟨i, j⟩ := p
  obtain ⟨k, l⟩ := q
  have hnodup : vars.Nodup := hascending.imp fun h => h.ne
  have hinj : ∀ {a b : Nat}, a < vars.length → b < vars.length →
      vars.getD a 0 = vars.getD b 0 → a = b := by
    intro a b ha hb hab
    simp only [List.getD_eq_getElem _ _ ha, List.getD_eq_getElem _ _ hb] at hab
    exact hnodup.getElem_inj_iff.mp hab
  simp only [varPair, Sym2.eq_iff] at hpair hp hq
  rcases hpair with ⟨hik, hjl⟩ | ⟨hil, hjk⟩
  · rw [hinj (by omega) (by omega) hik, hinj (by omega) (by omega) hjl]
  · have hil := hinj (by omega) (by omega) hil
    have hjk := hinj (by omega) (by omega) hjk
    omega

/-- A key is booked as a coupling under the pair of variables that it names. -/
theorem pair?_eq_some_iff {vars : List Int} {key : Key} {pair : Sym2 Int}
    (hmem : ∀ v ∈ key.vars, v ∈ vars) :
    key.pair? = some pair ↔
      ∃ i j, key.place (vars.idxOf ·) = .coupling i j ∧ varPair vars (i, j) = pair := by
  cases key with
  | one v => simp [Key.pair?, Key.place]
  | two u v =>
    by_cases huv : u = v
    · simp [Key.pair?, Key.place, huv]
    · have hback : ∀ w ∈ vars, vars.getD (vars.idxOf w) 0 = w := by
        intro w hw
        rw [List.getD_eq_getElem _ _ (List.idxOf_lt_length_of_mem hw), List.getElem_idxOf]
      have hu := hback u (hmem u (by simp [Key.vars]))
      have hv := hback v (hmem v (by simp [Key.vars]))
      have hpair : varPair vars (min (vars.idxOf u) (vars.idxOf v),
          max (vars.idxOf u) (vars.idxOf v)) = s(u, v) := by
        rcases Nat.le_total (vars.idxOf u) (vars.idxOf v) with hle | hle
        · rw [Nat.min_eq_left hle, Nat.max_eq_right hle, varPair, hu, hv]
        · rw [Nat.min_eq_right hle, Nat.max_eq_left hle, varPair, hu, hv, Sym2.eq_swap]
      simp only [Key.pair?, Key.place, if_neg huv, Option.some.injEq, Place.coupling.injEq]
      constructor
      · rintro rfl
        exact ⟨_, _, ⟨rfl, rfl⟩, hpair⟩
      · rintro ⟨i, j, ⟨rfl, rfl⟩, rfl⟩
        exact hpair.symm

variable [OfNat ω 0] [Add ω] (terms : List (Term ω))

/-- There are as many couplings as pairs of different variables that are named. -/
theorem length_ledgerOf :
    (ledgerOf terms).length = (namedPairs (terms.map Term.key)).card := by
  have hbooked := booked_ledgerOf terms
  have hpairs : ∀ pair, pair ∈ (ledgerOf terms).keys.map (varPair (varsOf terms)) ↔
      pair ∈ (terms.map Term.key).filterMap Key.pair? := by
    intro pair
    rw [List.mem_map, List.mem_filterMap]
    constructor
    · rintro ⟨⟨i, j⟩, hkey, rfl⟩
      obtain ⟨entry, hentry, hplace⟩ := mem_keys_couplings_iff.mp hkey
      obtain ⟨term, hterm, rfl⟩ := List.mem_map.mp hentry
      exact ⟨term.key, List.mem_map_of_mem hterm,
        (pair?_eq_some_iff fun v hv => mem_varsOf.mpr ⟨term, hterm, hv⟩).mpr ⟨i, j, hplace, rfl⟩⟩
    · rintro ⟨_, hkey, hpair⟩
      obtain ⟨term, hterm, rfl⟩ := List.mem_map.mp hkey
      obtain ⟨i, j, hplace, rfl⟩ :=
        (pair?_eq_some_iff fun v hv => mem_varsOf.mpr ⟨term, hterm, hv⟩).mp hpair
      exact ⟨(i, j), mem_keys_couplings_iff.mpr ⟨_, List.mem_map_of_mem hterm, hplace⟩, rfl⟩
  have hwithin : ∀ key ∈ (ledgerOf terms).keys,
      key.1 < key.2 ∧ key.2 < (varsOf terms).length := by
    intro key hkey
    obtain ⟨coupling, hmem, rfl⟩ := List.mem_map.mp hkey
    exact hbooked.within coupling hmem
  have hnodup : ((ledgerOf terms).keys.map (varPair (varsOf terms))).Nodup :=
    hbooked.nodup.map_on fun p hp q hq =>
      varPair_injOn (ascending_pairwise _) (hwithin p hp) (hwithin q hq)
  rw [namedPairs, ← List.toFinset.ext hpairs, List.toFinset_card_of_nodup hnodup]
  simp [Ledger.keys]

/-- There are two slots for each pair of different variables that is named. -/
theorem edgeCount_ofTerms :
    (ofTerms terms).edgeCount = 2 * (namedPairs (terms.map Term.key)).card := by
  rw [ofTerms_eq_ofRows, edgeCount_ofRows, List.map_map, ← length_ledgerOf,
    ← sum_length_row (booked_ledgerOf terms)]
  rfl

theorem wellFormed_of_build {weigh : Value → Value → Except Fault ω} {coefficients : Coefficients}
    {graph : Graph ω} (hbuild : Graph.build weigh coefficients = .ok graph) : graph.WellFormed := by
  obtain ⟨terms, -, rfl⟩ := build_eq_ok_iff.mp hbuild
  exact wellFormed_ofTerms terms

end Graph

end Annealing
