import Annealing.Proofs.Graph.WellFormed
import Mathlib.Data.List.Perm.Basic
import Mathlib.Data.List.Sort

/-! # What is added up where

The bias of a variable adds up the weights of the keys that name it alone, and a coupling those of
the keys that name its pair, in map order and from the left.  Nothing else of a map shows in its
graph, and its order only as far as the addition lets it.

* `amounts_idxOf`, `amounts_varPair` — the weights that are booked at a node and at a pair of nodes
  are those of a variable and of a pair of variables.
* `getElem?_linear_ofTerms`, `mem_neighbours_ofTerms` — so the graph of terms is known entry by
  entry.
* `ofTerms_congr` — terms with the same variables and the same sums have the same graph.
* `contents_of_build` — the graph of a map, and which changes of the map keep it.
-/

namespace Annealing

variable {ω : Type}

/-! ## Weights by name -/

/-- The weights of the terms whose keys name a variable and no other one. -/
def soleWeights (v : Int) (terms : List (Term ω)) : List ω :=
  (terms.filter fun term => term.key.vars.all (· = v)).map Term.weight

/-- The weights of the terms whose keys name a pair of variables, in whichever order. -/
def pairWeights (pair : Sym2 Int) (terms : List (Term ω)) : List ω :=
  (terms.filter fun term => term.key.pair? = some pair).map Term.weight

theorem pairWeights_ne_nil_iff {pair : Sym2 Int} {terms : List (Term ω)} :
    pairWeights pair terms ≠ [] ↔ ∃ term ∈ terms, term.key.pair? = some pair := by
  simp [pairWeights]

/-! ## Keys and places -/

theorem Key.place_eq_bias_iff {key : Key} {ids : List Int} {v : Int}
    (hmem : ∀ u ∈ key.vars, u ∈ ids) :
    key.place (ids.idxOf ·) = .bias (ids.idxOf v) ↔ ∀ u ∈ key.vars, u = v := by
  cases key with
  | one i =>
    have hi : i ∈ ids := hmem i (by simp [vars])
    simp [place, vars, List.idxOf_inj hi]
  | two i j =>
    have hi : i ∈ ids := hmem i (by simp [vars])
    by_cases hij : i = j
    · simp [place, vars, ← hij, List.idxOf_inj hi]
    · have hne : i = v → ¬ j = v := fun hi hj => hij (hi.trans hj.symm)
      simpa [place, vars, hij] using hne

theorem Key.ne_of_pair? {key : Key} {u v : Int} (hpair : key.pair? = some s(u, v)) : u ≠ v := by
  cases key with
  | one i => cases hpair
  | two i j =>
    rintro rfl
    by_cases hij : i = j
    · simp [pair?, hij] at hpair
    · simp only [pair?, if_neg hij, Option.some.injEq, Sym2.eq_iff] at hpair
      omega

namespace Graph

theorem place_eq_coupling_iff {key : Key} {ids : List Int} (hascending : ids.Pairwise (· < ·))
    (hmem : ∀ u ∈ key.vars, u ∈ ids) {i j : Nat} (hij : i < j) (hj : j < ids.length) :
    key.place (ids.idxOf ·) = .coupling i j ↔ key.pair? = some (varPair ids (i, j)) := by
  rw [pair?_eq_some_iff hmem]
  constructor
  · intro hplace
    exact ⟨i, j, hplace, rfl⟩
  · rintro ⟨k, l, hplace, hpair⟩
    have hwithin := Key.place_within hmem
    rw [hplace] at hwithin
    have hsame : (k, l) = (i, j) := varPair_injOn hascending hwithin ⟨hij, hj⟩ hpair
    cases hsame
    exact hplace

/-- The amounts at a place are the weights of the keys that lead there. -/
theorem amounts_entriesOf {terms : List (Term ω)} {place : Place} (leads : Key → Bool)
    (hleads : ∀ term ∈ terms,
      term.key.place ((varsOf terms).idxOf ·) = place ↔ leads term.key = true) :
    amounts place (entriesOf terms) =
      (terms.filter fun term => leads term.key).map Term.weight := by
  rw [amounts, entriesOf, List.filter_map, List.map_map]
  change (terms.filter _).map Term.weight = _
  congr 1
  refine List.filter_congr fun term hterm => ?_
  rw [Bool.eq_iff_iff, ← hleads term hterm]
  exact decide_eq_true_iff

theorem amounts_idxOf (terms : List (Term ω)) (v : Int) :
    amounts (.bias ((varsOf terms).idxOf v)) (entriesOf terms) = soleWeights v terms := by
  refine amounts_entriesOf (fun key => key.vars.all (· = v)) fun term hterm => ?_
  rw [Key.place_eq_bias_iff fun u hu => mem_varsOf.mpr ⟨term, hterm, hu⟩]
  simp

theorem amounts_varPair (terms : List (Term ω)) {i j : Nat} (hij : i < j)
    (hj : j < (varsOf terms).length) :
    amounts (.coupling i j) (entriesOf terms) =
      pairWeights (varPair (varsOf terms) (i, j)) terms := by
  refine amounts_entriesOf (fun key => key.pair? = some (varPair (varsOf terms) (i, j)))
    fun term hterm => ?_
  have hascending : (varsOf terms).Pairwise (· < ·) := ascending_pairwise _
  rw [place_eq_coupling_iff hascending (fun u hu => mem_varsOf.mpr ⟨term, hterm, hu⟩) hij hj]
  simp

/-! ## The graph of terms, entry by entry -/

section Sums

variable [OfNat ω 0] [Add ω]

theorem getElem?_linear_ofTerms {terms : List (Term ω)} {i : Nat} {v : Int}
    (hv : (varsOf terms)[i]? = some v) :
    (ofTerms terms).linear[i]? = some (leftSum (soleWeights v terms)) := by
  obtain ⟨hi, hget⟩ := List.getElem?_eq_some_iff.mp hv
  have hnodup : (varsOf terms).Nodup := (ascending_pairwise _).imp fun h => h.ne
  have hnode : (varsOf terms).idxOf v = i := by
    rw [← hget, hnodup.idxOf_getElem]
  have hsize : i < (ofTerms terms).linear.size := by simpa [linear_ofTerms] using hi
  have hbias := getD_biases hi (entriesOf terms)
  rw [← linear_ofTerms, Array.getD_eq_getD_getElem?, Array.getElem?_eq_getElem hsize] at hbias
  rw [Array.getElem?_eq_getElem hsize, ← amounts_idxOf, hnode, ← hbias, Option.getD_some]

theorem mem_ledgerOf {terms : List (Term ω)} {i j : Nat} {w : ω} (hij : i < j)
    (hj : j < (varsOf terms).length) :
    ((i, j), w) ∈ ledgerOf terms ↔ pairWeights (varPair (varsOf terms) (i, j)) terms ≠ [] ∧
      w = leftSum (pairWeights (varPair (varsOf terms) (i, j)) terms) := by
  rw [ledgerOf, mem_couplings_iff, amounts_varPair terms hij hj]

theorem varPair_of_getElem? {ids : List Int} {i j : Nat} {u v : Int} (hu : ids[i]? = some u)
    (hv : ids[j]? = some v) : varPair ids (i, j) = s(u, v) := by
  simp [varPair, List.getD_eq_getElem?_getD, hu, hv]

/-- The neighbours of a node are those whose variable some key names together with its own. -/
theorem mem_neighbours_ofTerms {terms : List (Term ω)} {i j : Nat} {u : Int} {w : ω}
    (hu : (varsOf terms)[i]? = some u) :
    (j, w) ∈ (ofTerms terms).neighbours i ↔
      ∃ v, (varsOf terms)[j]? = some v ∧ pairWeights s(u, v) terms ≠ [] ∧
        w = leftSum (pairWeights s(u, v) terms) := by
  have hbooked := booked_ledgerOf terms
  have hi : i < (varsOf terms).length := (List.getElem?_eq_some_iff.mp hu).1
  have hswap {v : Int} (hv : (varsOf terms)[j]? = some v) :
      varPair (varsOf terms) (j, i) = s(u, v) := by
    rw [varPair_of_getElem? hv hu, Sym2.eq_swap]
  rw [neighbours_ofTerms, mem_row hbooked]
  constructor
  · intro hmem
    have hj : j < (varsOf terms).length := by
      rcases hmem with hmem | hmem
      · exact (hbooked.within _ hmem).2
      · exact (hbooked.within _ hmem).1.trans hi
    obtain ⟨v, hv⟩ : ∃ v, (varsOf terms)[j]? = some v := ⟨_, List.getElem?_eq_getElem hj⟩
    refine ⟨v, hv, ?_⟩
    rcases hmem with hmem | hmem
    · rwa [mem_ledgerOf (hbooked.within _ hmem).1 hj, varPair_of_getElem? hu hv] at hmem
    · rwa [mem_ledgerOf (hbooked.within _ hmem).1 hi, hswap hv] at hmem
  · rintro ⟨v, hv, hsome, hw⟩
    have hj : j < (varsOf terms).length := (List.getElem?_eq_some_iff.mp hv).1
    -- A key that names a pair names two variables, and these have two nodes.
    have hne : i ≠ j := by
      rintro rfl
      obtain ⟨term, -, hnamed⟩ := pairWeights_ne_nil_iff.mp hsome
      rw [hu, Option.some.injEq] at hv
      exact Key.ne_of_pair? hnamed hv
    rcases Nat.lt_or_gt_of_ne hne with hlt | hgt
    · rw [mem_ledgerOf hlt hj, varPair_of_getElem? hu hv]
      exact .inl ⟨hsome, hw⟩
    · rw [mem_ledgerOf hgt hi, hswap hv]
      exact .inr ⟨hsome, hw⟩

/-! ## Other terms with the same graph -/

omit [Add ω] in
/-- Neighbours that are the same are listed in the same order. -/
theorem WellFormed.neighbours_congr {graph graph' : Graph ω} (hwf : graph.WellFormed)
    (hwf' : graph'.WellFormed) {i : Nat}
    (hmem : ∀ j w, (j, w) ∈ graph.neighbours i ↔ (j, w) ∈ graph'.neighbours i) :
    graph.neighbours i = graph'.neighbours i := by
  have hirrefl : Std.Irrefl fun a b : Nat × ω => a.1 < b.1 := ⟨fun a => Nat.lt_irrefl a.1⟩
  have hascending := List.pairwise_map.mp (hwf.targets_ascending i)
  have hascending' := List.pairwise_map.mp (hwf'.targets_ascending i)
  exact hascending.eq_of_mem_iff hascending' fun neighbour => hmem neighbour.1 neighbour.2

/-- Terms of the same variables that come to the same sums have the same graph. -/
theorem ofTerms_congr {terms terms' : List (Term ω)}
    (hvars : ∀ v, v ∈ varsOf terms ↔ v ∈ varsOf terms')
    (hsole : ∀ v, leftSum (soleWeights v terms) = leftSum (soleWeights v terms'))
    (hpair : ∀ pair, (pairWeights pair terms ≠ [] ↔ pairWeights pair terms' ≠ []) ∧
      leftSum (pairWeights pair terms) = leftSum (pairWeights pair terms')) :
    ofTerms terms = ofTerms terms' := by
  have hsame : varsOf terms = varsOf terms' :=
    (ascending_pairwise _).eq_of_mem_iff (ascending_pairwise _) hvars
  have hget {i : Nat} (hi : i < (varsOf terms).length) :
      ∃ v, (varsOf terms)[i]? = some v ∧ (varsOf terms')[i]? = some v := by
    rw [← hsame]
    exact ⟨_, List.getElem?_eq_getElem hi, List.getElem?_eq_getElem hi⟩
  have hlinear : (ofTerms terms).linear = (ofTerms terms').linear := by
    refine Array.ext_getElem? fun i => ?_
    by_cases hi : i < (varsOf terms).length
    · obtain ⟨v, hv, hv'⟩ := hget hi
      rw [getElem?_linear_ofTerms hv, getElem?_linear_ofTerms hv', hsole]
    · simp [linear_ofTerms, ← hsame, hi]
  have hrows : ∀ i < (varsOf terms).length,
      row (ledgerOf terms) i = row (ledgerOf terms') i := by
    intro i hi
    obtain ⟨u, hu, hu'⟩ := hget hi
    rw [← neighbours_ofTerms, ← neighbours_ofTerms]
    refine (wellFormed_ofTerms terms).neighbours_congr (wellFormed_ofTerms terms') fun j w => ?_
    rw [mem_neighbours_ofTerms hu, mem_neighbours_ofTerms hu']
    simp only [← hsame, (hpair _).1, (hpair _).2]
  rw [ofTerms_eq_ofRows, ofTerms_eq_ofRows, ← linear_ofTerms, ← linear_ofTerms, hlinear, ← hsame]
  congr 1
  exact List.map_congr_left fun i hi => hrows i (List.mem_range.mp hi)

/-- Where sums do not depend on the order, neither does the graph. -/
theorem ofTerms_perm (hassoc : ∀ a b c : ω, a + b + c = a + (b + c))
    (hcomm : ∀ a b : ω, a + b = b + a) {terms terms' : List (Term ω)} (hperm : terms.Perm terms') :
    ofTerms terms = ofTerms terms' := by
  have hright : RightCommutative fun a b : ω => a + b :=
    ⟨fun a b c => by rw [hassoc, hcomm b, hassoc]⟩
  have hsum {ws ws' : List ω} (hws : ws.Perm ws') : leftSum ws = leftSum ws' := hws.foldl_eq 0
  refine ofTerms_congr (fun v => ?_) (fun v => ?_) fun pair => ⟨?_, ?_⟩
  · simp only [mem_varsOf, hperm.mem_iff]
  · exact hsum ((hperm.filter _).map _)
  · simp only [pairWeights_ne_nil_iff, hperm.mem_iff]
  · exact hsum ((hperm.filter _).map _)

end Sums

/-! ## The graph of a map -/

theorem exists_readTerms_perm {weigh : Value → Value → Except Fault ω}
    {coefficients coefficients' : Coefficients} {terms : List (Term ω)}
    (hperm : coefficients.Perm coefficients') (hread : coefficients.readTerms weigh = .ok terms) :
    ∃ terms', coefficients'.readTerms weigh = .ok terms' ∧ terms.Perm terms' := by
  rw [Coefficients.readTerms_eq_ok_iff] at hread
  obtain ⟨terms', hread', hterms⟩ := List.perm_comp_forall₂ hperm.symm hread
  exact ⟨terms', Coefficients.readTerms_eq_ok_iff.mpr hread', hterms.symm⟩

/-- The graph of a map, whatever its addition.  The bias of a variable is the sum from the left, in
    map order, of the weights of the keys that name it alone.  Two variables are neighbours if some
    key names both of them, in whichever order, and their coupling is the sum from the left of the
    weights of all such keys.

    So another map of the same variables has the same graph if it lists the same weights for each
    variable and for each pair of variables, in the same order.  Where the addition is associative
    and commutative the order does not matter, and every permutation of a map has its graph. -/
theorem contents_of_build [OfNat ω 0] [Add ω] {weigh : Value → Value → Except Fault ω}
    {coefficients : Coefficients} {graph : Graph ω}
    (hbuild : Graph.build weigh coefficients = .ok graph) :
    ∃ terms, coefficients.readTerms weigh = .ok terms ∧
      (∀ (i : Nat) (v : Int), graph.vars[i]? = some v →
        graph.linear[i]? = some (leftSum (soleWeights v terms))) ∧
      (∀ (i : Nat) (u : Int), graph.vars[i]? = some u →
        ((graph.neighbours i).map Prod.fst).Pairwise (· < ·) ∧
          ∀ j w, (j, w) ∈ graph.neighbours i ↔ ∃ v, graph.vars[j]? = some v ∧
            (∃ term ∈ terms, term.key.pair? = some s(u, v)) ∧
            w = leftSum (pairWeights s(u, v) terms)) ∧
      (∀ coefficients' terms' graph', Graph.build weigh coefficients' = .ok graph' →
        coefficients'.readTerms weigh = .ok terms' →
        (∀ v, v ∈ graph.vars ↔ v ∈ graph'.vars) →
        (∀ v, soleWeights v terms = soleWeights v terms') →
        (∀ pair, pairWeights pair terms = pairWeights pair terms') → graph = graph') ∧
      ((∀ a b c : ω, a + b + c = a + (b + c)) → (∀ a b : ω, a + b = b + a) →
        ∀ coefficients', coefficients.Perm coefficients' →
          Graph.build weigh coefficients' = .ok graph) := by
  obtain ⟨terms, hread, rfl⟩ := build_eq_ok_iff.mp hbuild
  refine ⟨terms, hread, fun i v => getElem?_linear_ofTerms, fun i u hu => ⟨?_, fun j w => ?_⟩, ?_,
    ?_⟩
  · exact (wellFormed_ofTerms terms).targets_ascending i
  · simp only [← pairWeights_ne_nil_iff]
    exact mem_neighbours_ofTerms hu
  · intro coefficients' terms' graph' hbuild' hread' hvars hsole hpair
    obtain ⟨_, hagain, rfl⟩ := build_eq_ok_iff.mp hbuild'
    cases hread'.symm.trans hagain
    exact ofTerms_congr hvars (fun v => by rw [hsole]) fun pair => by simp [hpair]
  · intro hassoc hcomm coefficients' hperm
    obtain ⟨terms', hread', hterms⟩ := exists_readTerms_perm hperm hread
    exact build_eq_ok_iff.mpr ⟨terms', hread', (ofTerms_perm hassoc hcomm hterms).symm⟩

end Graph

/-! ## An example -/

/-- The sample map with its keys in other words, and in an order that keeps the weights of each
    variable and of each pair as they follow one another. -/
def Coefficients.regrouped : Coefficients :=
  [(.int 7, .int 1), (.text "0", .float 1.5), (.text "1,0", .float 0.5),
    (.tuple [.int (-3), .int 5], .int 1), (.text "0,0", .float 0.5), (.text "0,1", .float (-0.25)),
    (.text "5 ,-3", .int (-1)), (.int 5, .int 4)]

theorem Graph.contents_of_build_sample :
    Graph.build Coefficients.readExact Coefficients.sample = .ok Graph.sample ∧
      (∃ terms, Coefficients.sample.readTerms Coefficients.readExact = .ok terms ∧
        soleWeights 0 terms = [3 / 2, 1 / 2] ∧
        Graph.sample.linear[1]? = some (leftSum (soleWeights 0 terms)) ∧
        pairWeights s(-3, 5) terms = [1, -1] ∧
        (3, leftSum (pairWeights s(-3, 5) terms)) ∈ Graph.sample.neighbours 0) ∧
      Graph.build Coefficients.readExact Coefficients.regrouped = .ok Graph.sample ∧
      Graph.build Coefficients.readExact Coefficients.sample.reverse = .ok Graph.sample := by
  obtain ⟨terms, hread, hlinear, hneighbours, hsame, hperm⟩ := contents_of_build build_sample
  have hterms : terms = [⟨.two 1 0, 1 / 2⟩, ⟨.two 0 1, -1 / 4⟩, ⟨.two 5 5, 4⟩, ⟨.one 0, 3 / 2⟩,
      ⟨.two (-3) 5, 1⟩, ⟨.two 5 (-3), -1⟩, ⟨.one 0, 1 / 2⟩, ⟨.one 7, 1⟩] := by
    cases hread
    decide +kernel
  obtain ⟨terms', hread', hterms'⟩ : ∃ terms',
      Coefficients.regrouped.readTerms Coefficients.readExact = .ok terms' ∧
        terms' = [⟨.one 7, 1⟩, ⟨.one 0, 3 / 2⟩, ⟨.two 1 0, 1 / 2⟩, ⟨.two (-3) 5, 1⟩,
          ⟨.two 0 0, 1 / 2⟩, ⟨.two 0 1, -1 / 4⟩, ⟨.two 5 (-3), -1⟩, ⟨.one 5, 4⟩] :=
    ⟨_, rfl, by decide +kernel⟩
  have hregrouped : Graph.build Coefficients.readExact Coefficients.regrouped =
      .ok (ofTerms terms') := build_eq_ok_iff.mpr ⟨terms', hread', rfl⟩
  have hvars : ∀ v, v ∈ Graph.sample.vars ↔ v ∈ (ofTerms terms').vars := by
    intro v
    have heq : Graph.sample.vars = varsOf terms' := by
      rw [hterms']
      decide +kernel
    rw [heq, vars_ofTerms]
  have hsole : ∀ v, soleWeights v terms = soleWeights v terms' := by
    intro v
    rw [hterms, hterms']
    by_cases hnamed : v ∈ [0, 5, 7]
    · simp only [List.mem_cons, List.not_mem_nil, or_false] at hnamed
      rcases hnamed with rfl | rfl | rfl <;> decide +kernel
    · simp only [List.mem_cons, List.not_mem_nil, or_false, not_or] at hnamed
      simp [soleWeights, Key.vars, Ne.symm hnamed.1, Ne.symm hnamed.2.1, Ne.symm hnamed.2.2]
  have hpair : ∀ pair, pairWeights pair terms = pairWeights pair terms' := by
    intro pair
    rw [hterms, hterms']
    by_cases hnamed : pair = s(0, 1) ∨ pair = s(-3, 5)
    · rcases hnamed with rfl | rfl <;> decide +kernel
    · rw [not_or] at hnamed
      have hzero : s((1 : Int), 0) = s(0, 1) := Sym2.eq_swap
      have hfive : s((5 : Int), -3) = s(-3, 5) := Sym2.eq_swap
      simp [pairWeights, Key.pair?, hzero, hfive, Ne.symm hnamed.1, Ne.symm hnamed.2]
  have hzero : soleWeights 0 terms = [3 / 2, 1 / 2] := by
    rw [hterms]
    decide +kernel
  have hcancels : pairWeights s(-3, 5) terms = [1, -1] := by
    rw [hterms]
    decide +kernel
  refine ⟨build_sample, ⟨terms, hread, hzero, hlinear 1 0 rfl, hcancels, ?_⟩, ?_, ?_⟩
  · refine ((hneighbours 0 (-3) rfl).2 3 _).mpr ⟨5, rfl, ?_, rfl⟩
    exact ⟨⟨.two (-3) 5, 1⟩, by simp [hterms], rfl⟩
  · rw [hregrouped, hsame _ _ _ hregrouped hread' hvars hsole hpair]
  · exact hperm add_assoc add_comm _ (List.reverse_perm _).symm

end Annealing
