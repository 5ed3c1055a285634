import Annealing.Proofs.Graph.Energy
import Annealing.Proofs.Problem.Exact
import Mathlib.Algebra.BigOperators.Ring.Finset
import Mathlib.Algebra.Field.Rat

/-! # The energy is the polynomial of the map

A coefficient map is a polynomial in its variables: each entry is a weight times the variables that
its key names.  `Coefficients.energyAt` evaluates it entry by entry, with no graph in between; the
graph of the map has that energy in each state.

* `setEnergy_ofTerms` — the energy of a set of nodes is the sum of the entries that it covers.
* `exists_toState_energyAt` — the energy of the state of an assignment is the value of the
  polynomial.
-/

namespace Annealing

/-! ## The polynomial of a map -/

namespace Coefficients

variable {ω : Type} [CommRing ω]

/-- The value of an entry: its weight times the values of the variables that its key names. -/
def entryAt (weigh : Value → Value → Except Fault ω) (x : Int → ω) (entry : Value × Value) :
    Except Fault ω := do
  let key ← Key.read entry.1
  let weight ← weigh entry.1 entry.2
  return weight * (key.vars.map x).prod

/-- The value of a map: the sum of the values of its entries. -/
def energyAt (weigh : Value → Value → Except Fault ω) (x : Int → ω) (coefficients : Coefficients) :
    Except Fault ω := do
  return (← coefficients.mapM (entryAt weigh x)).sum

/-- The values of the entries of a map are those of its terms. -/
theorem energyAt_of_readTerms {weigh : Value → Value → Except Fault ω} {x : Int → ω}
    {coefficients : Coefficients} {terms : List (Term ω)}
    (hread : coefficients.readTerms weigh = .ok terms) :
    coefficients.energyAt weigh x =
      .ok (terms.map fun term => term.weight * (term.key.vars.map x).prod).sum := by
  have hvalues : coefficients.mapM (entryAt weigh x) =
      .ok (terms.map fun term => term.weight * (term.key.vars.map x).prod) := by
    rw [mapM_eq_ok_iff, List.forall₂_map_right_iff]
    refine (readTerms_eq_ok_iff.mp hread).imp fun entry term h => ?_
    simp [entryAt, h.1, h.2, bind, Except.bind, pure, Except.pure]
  simp [energyAt, hvalues, bind, Except.bind, pure, Except.pure]

end Coefficients

/-! ## Entries inside a set -/

/-- Does a place lie inside a set of nodes? -/
def Place.Inside (s : Finset Nat) : Place → Prop
  | .bias i => i ∈ s
  | .coupling i j => i ∈ s ∧ j ∈ s

instance (s : Finset Nat) (place : Place) : Decidable (place.Inside s) :=
  match place with
  | .bias i => inferInstanceAs (Decidable (i ∈ s))
  | .coupling i j => inferInstanceAs (Decidable (i ∈ s ∧ j ∈ s))

theorem Place.inside_bias {s : Finset Nat} {i : Nat} : (Place.bias i).Inside s ↔ i ∈ s :=
  Iff.rfl

theorem Place.inside_coupling {s : Finset Nat} {i j : Nat} :
    (Place.coupling i j).Inside s ↔ i ∈ s ∧ j ∈ s :=
  Iff.rfl

namespace Graph

variable {ω : Type}

section Sums

variable [AddCommMonoid ω]

theorem leftSum_eq_sum (ws : List ω) : leftSum ws = ws.sum :=
  List.sum_eq_foldl.symm

theorem sum_amounts_cons (place : Place) (entry : Place × ω) (entries : List (Place × ω)) :
    (amounts place (entry :: entries)).sum =
      (if entry.1 = place then entry.2 else 0) + (amounts place entries).sum := by
  obtain ⟨other, w⟩ := entry
  by_cases hplace : other = place
  · subst hplace
    rw [amounts_cons_self, if_pos rfl, List.sum_cons]
  · rw [amounts_cons_of_ne hplace, if_neg hplace, zero_add]

/-- What an entry brings to a set of nodes, summed over all places of the set. -/
theorem sum_places {n : Nat} {place : Place} (hwithin : place.Within n) (w : ω) (s : Finset Nat) :
    ∑ i ∈ s, ((if place = .bias i then w else 0) +
        ∑ j ∈ s with i < j, if place = .coupling i j then w else 0) =
      if place.Inside s then w else 0 := by
  cases place with
  | bias k => simp [if_congr Place.inside_bias rfl rfl]
  | coupling a b =>
    have hab : a < b := hwithin.1
    simp only [reduceCtorEq, if_false, zero_add, Place.coupling.injEq,
      if_congr Place.inside_coupling rfl rfl]
    have hinner : ∀ i ∈ s, ∑ j ∈ s with i < j, (if a = i ∧ b = j then w else 0) =
        if a = i then (if b ∈ s then w else 0) else 0 := by
      intro i _
      by_cases hai : a = i
      · subst hai
        simp [Finset.sum_ite_eq, hab]
      · simp [hai]
    rw [Finset.sum_congr rfl hinner, Finset.sum_ite_eq, ite_and]

/-- The amounts at all places of a set of nodes are the entries that lie inside it. -/
theorem sum_amounts {n : Nat} {entries : List (Place × ω)}
    (hwithin : ∀ entry ∈ entries, entry.1.Within n) (s : Finset Nat) :
    ∑ i ∈ s, ((amounts (.bias i) entries).sum +
        ∑ j ∈ s with i < j, (amounts (.coupling i j) entries).sum) =
      (entries.map fun entry => if entry.1.Inside s then entry.2 else 0).sum := by
  induction entries with
  | nil => simp
  | cons entry entries ih =>
    have hentry := sum_places (hwithin entry List.mem_cons_self) entry.2 s
    rw [List.map_cons, List.sum_cons, ← ih fun e he => hwithin e (List.mem_cons_of_mem _ he),
      ← hentry, ← Finset.sum_add_distrib]
    refine Finset.sum_congr rfl fun i _ => ?_
    simp only [sum_amounts_cons, Finset.sum_add_distrib]
    exact add_add_add_comm _ _ _ _

/-! ## The energy of the graph of terms -/

variable (terms : List (Term ω))

theorem linear_getD_ofTerms {i : Nat} (hi : i < (ofTerms terms).size) :
    (ofTerms terms).linear.getD i 0 = (amounts (.bias i) (entriesOf terms)).sum := by
  rw [size_ofTerms] at hi
  rw [linear_ofTerms, getD_biases hi, leftSum_eq_sum]

theorem pairWeight_ofTerms {i j : Nat} (hij : i < j) :
    (ofTerms terms).pairWeight i j = (amounts (.coupling i j) (entriesOf terms)).sum := by
  have hbooked := booked_ledgerOf terms
  by_cases hnone : amounts (.coupling i j) (entriesOf terms) = []
  · rw [hnone, List.sum_nil]
    refine pairWeight_of_forall_not_mem fun w hmem => ?_
    rw [neighbours_ofTerms] at hmem
    rcases (mem_row hbooked).mp hmem with hmem | hmem
    · exact (mem_couplings_iff.mp hmem).1 hnone
    · exact hij.not_gt (hbooked.within _ hmem).1
  · have hmem : (j, leftSum (amounts (.coupling i j) (entriesOf terms))) ∈
        (ofTerms terms).neighbours i := by
      rw [neighbours_ofTerms, mem_row hbooked]
      exact .inl (mem_couplings_iff.mpr ⟨hnone, rfl⟩)
    rw [pairWeight_of_mem (wellFormed_ofTerms terms) hmem, leftSum_eq_sum]

/-- The energy of a set of nodes is the sum of all entries inside it. -/
theorem setEnergy_ofTerms {s : Finset Nat} (hs : ∀ i ∈ s, i < (ofTerms terms).size) :
    (ofTerms terms).setEnergy s =
      ((entriesOf terms).map fun entry => if entry.1.Inside s then entry.2 else 0).sum := by
  rw [← sum_amounts (fun entry hmem => within_of_mem_entriesOf hmem) s, setEnergy]
  refine Finset.sum_congr rfl fun i hi => ?_
  rw [linear_getD_ofTerms terms (hs i hi)]
  congr 1
  refine Finset.sum_congr rfl fun j hj => ?_
  exact pairWeight_ofTerms terms (Finset.mem_filter.mp hj).2

end Sums

/-! ## Assignments -/

section Assignments

variable [CommRing ω]

/-- A product of zeros and ones. -/
theorem prod_bits (x : Int → Bool) (vars : List Int) :
    (vars.map fun v => if x v then (1 : ω) else 0).prod =
      if ∀ v ∈ vars, x v = true then 1 else 0 := by
  induction vars with
  | nil => simp
  | cons v rest ih =>
    rw [List.map_cons, List.prod_cons, ih]
    by_cases hv : x v = true <;> simp [hv]

/-- The place of a key lies inside the nodes that are set just if all its variables are one. -/
theorem place_inside_iff {vars : List Int} {s : Finset Nat} {x : Int → Bool}
    (hset : ∀ v ∈ vars, vars.idxOf v ∈ s ↔ x v = true) {key : Key}
    (hmem : ∀ v ∈ key.vars, v ∈ vars) :
    (key.place (vars.idxOf ·)).Inside s ↔ ∀ v ∈ key.vars, x v = true := by
  cases key with
  | one i => simp [Key.place, Place.inside_bias, Key.vars, hset i (hmem i (by simp [Key.vars]))]
  | two i j =>
    have hi := hset i (hmem i (by simp [Key.vars]))
    have hj := hset j (hmem j (by simp [Key.vars]))
    by_cases hij : i = j
    · subst hij
      simp [Key.place, Place.inside_bias, Key.vars, hi]
    · rcases Nat.le_total (vars.idxOf i) (vars.idxOf j) with hle | hle
      · simp [Key.place, Place.inside_coupling, Key.vars, hij, hle, hi, hj]
      · simp [Key.place, Place.inside_coupling, Key.vars, hij, hle, hi, hj, and_comm]

/-- The energy of a state in which each variable has its chosen bit. -/
theorem energy_ofTerms (terms : List (Term ω)) (x : Int → Bool) {state : State}
    (hsize : state.size = (ofTerms terms).size)
    (hbits : ∀ v ∈ varsOf terms, state.bit ((varsOf terms).idxOf v) = if x v then 1 else 0) :
    (ofTerms terms).energy state =
      (terms.map fun term =>
        term.weight * (term.key.vars.map fun v => if x v then (1 : ω) else 0).prod).sum := by
  have hset : ∀ v ∈ varsOf terms,
      (varsOf terms).idxOf v ∈ state.support (ofTerms terms).size ↔ x v = true := by
    intro v hv
    have hlt : (varsOf terms).idxOf v < (ofTerms terms).size := List.idxOf_lt_length_of_mem hv
    rw [State.mem_support, and_iff_right hlt, hbits v hv]
    cases x v <;> simp
  rw [energy_eq_setEnergy (wellFormed_ofTerms terms) hsize,
    setEnergy_ofTerms terms fun i hi => (State.mem_support.mp hi).1, entriesOf, List.map_map]
  congr 1
  refine List.map_congr_left fun term hterm => ?_
  have hvars : ∀ v ∈ term.key.vars, v ∈ varsOf terms :=
    fun v hv => mem_varsOf.mpr ⟨term, hterm, hv⟩
  have hinside := place_inside_iff hset hvars
  rw [prod_bits, mul_ite, mul_one, mul_zero]
  exact if_congr hinside rfl rfl

/-- The energy of the graph of a map, in the state of any assignment of zeros and ones to all its
    variables, is the sum over all entries of the weight times the values of the variables that
    the key names. -/
theorem exists_toState_energyAt {weigh : Value → Value → Except Fault ω}
    {coefficients : Coefficients} {graph : Graph ω}
    (hbuild : Graph.build weigh coefficients = .ok graph) (x : Int → Bool) {ids : List Int}
    (hids : ∀ v, v ∈ ids ↔ v ∈ graph.vars) :
    ∃ state, graph.toState (choose x ids) = .ok state ∧
      coefficients.energyAt weigh (fun v => if x v then 1 else 0) = .ok (graph.energy state) := by
  obtain ⟨terms, hread, rfl⟩ := Graph.build_eq_ok_iff.mp hbuild
  obtain ⟨state, hstate, hsize, hbits⟩ :=
    toState_of_values (wellFormed_ofTerms terms).ascending x hids
  refine ⟨state, hstate, ?_⟩
  rw [Coefficients.energyAt_of_readTerms hread, energy_ofTerms terms x hsize hbits]

end Assignments

theorem exists_toState_energyAt_sample :
    Graph.build Coefficients.readExact Coefficients.sample = .ok Graph.sample ∧
      (∀ v, v ∈ [7, 5, 1, 0, -3] ↔ v ∈ Graph.sample.vars) ∧
      ∃ state, Graph.sample.toState (choose (· != 5) [7, 5, 1, 0, -3]) = .ok state ∧
        Coefficients.sample.energyAt Coefficients.readExact (fun v => if v != 5 then 1 else 0) =
          .ok (Graph.sample.energy state) := by
  have hids : ∀ v, v ∈ [7, 5, 1, 0, -3] ↔ v ∈ Graph.sample.vars := by
    intro v
    simp only [Graph.sample, List.mem_cons, List.not_mem_nil, or_false]
    omega
  exact ⟨Graph.build_sample, hids, exists_toState_energyAt Graph.build_sample (· != 5) hids⟩

end Graph

end Annealing
