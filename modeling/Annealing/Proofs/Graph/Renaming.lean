import Annealing.Graph.Assignment
import Annealing.Proofs.Problem.Terms
import Mathlib

/-! # Other names for variables

The ids of variables may be sent on by a function that keeps their order.  A node is the rank of its
variable, and ranks stay, so the graph of the renamed map differs in nothing but its variables.

* `ascending_map` — ascending lists are sent on to ascending lists.
* `Key.place_renamed` — a key that is renamed leads to the same place.
* `build_renamed` — a map with other names has the same graph, under these names.
-/

namespace Annealing

variable {ω : Type} {f : Int → Int} {ids : Set Int}

/-! ## Ascending lists -/

theorem insertAscending_map (hmono : StrictMonoOn f ids) {i : Int} (hi : i ∈ ids) {is : List Int}
    (his : ∀ j ∈ is, j ∈ ids) :
    insertAscending (f i) (is.map f) = (insertAscending i is).map f := by
  induction is with
  | nil => rfl
  | cons j is ih =>
    obtain ⟨hj, his⟩ := List.forall_mem_cons.mp his
    simp only [List.map_cons, insertAscending, hmono.lt_iff_lt hi hj, hmono.injOn.eq_iff hi hj,
      ih his]
    split
    · rfl
    · split <;> rfl

theorem ascending_map (hmono : StrictMonoOn f ids) {is : List Int} (his : ∀ i ∈ is, i ∈ ids) :
    ascending (is.map f) = (ascending is).map f := by
  have hfold (acc : List Int) (hacc : ∀ i ∈ acc, i ∈ ids) :
      (is.map f).foldl (fun acc i => insertAscending i acc) (acc.map f) =
        (is.foldl (fun acc i => insertAscending i acc) acc).map f := by
    induction is generalizing acc with
    | nil => rfl
    | cons i is ih =>
      obtain ⟨hi, his⟩ := List.forall_mem_cons.mp his
      rw [List.map_cons, List.foldl_cons, List.foldl_cons, insertAscending_map hmono hi hacc]
      apply ih his
      intro j hj
      rcases (mem_insertAscending i j acc).mp hj with rfl | hj
      · exact hi
      · exact hacc j hj
  exact hfold [] (by simp)

/-- A node keeps its rank. -/
theorem idxOf_map (hinj : Set.InjOn f ids) {i : Int} (hi : i ∈ ids) {is : List Int}
    (his : ∀ j ∈ is, j ∈ ids) : (is.map f).idxOf (f i) = is.idxOf i := by
  induction is with
  | nil => rfl
  | cons j is ih =>
    obtain ⟨hj, his⟩ := List.forall_mem_cons.mp his
    have hbeq : (f j == f i) = (j == i) := by
      rw [Bool.eq_iff_iff, beq_iff_eq, beq_iff_eq, hinj.eq_iff hj hi]
    rw [List.map_cons, List.idxOf_cons, List.idxOf_cons, hbeq, ih his]

/-! ## Keys and terms -/

/-- The same key, its ids sent on by a function. -/
def Key.renamed (f : Int → Int) : Key → Key
  | one i => one (f i)
  | two i j => two (f i) (f j)

@[simp] theorem Key.vars_renamed (f : Int → Int) (key : Key) :
    (key.renamed f).vars = key.vars.map f := by
  cases key <;> rfl

theorem Key.place_renamed (hinj : Set.InjOn f ids) {is : List Int} (his : ∀ i ∈ is, i ∈ ids)
    {key : Key} (hkey : ∀ i ∈ key.vars, i ∈ ids) :
    (key.renamed f).place ((is.map f).idxOf ·) = key.place (is.idxOf ·) := by
  cases key with
  | one i =>
    have hi : i ∈ ids := hkey i (by simp [vars])
    simp only [renamed, place, idxOf_map hinj hi his]
  | two i j =>
    have hi : i ∈ ids := hkey i (by simp [vars])
    have hj : j ∈ ids := hkey j (by simp [vars])
    simp only [renamed, place, hinj.eq_iff hi hj, idxOf_map hinj hi his, idxOf_map hinj hj his]

/-- The same term, its ids sent on by a function. -/
def Term.renamed (f : Int → Int) (term : Term ω) : Term ω :=
  ⟨term.key.renamed f, term.weight⟩

/-! ## Graphs -/

namespace Graph

/-- The same graph, its variables sent on by a function. -/
def renamed (f : Int → Int) (graph : Graph ω) : Graph ω :=
  { graph with vars := graph.vars.map f }

theorem varsOf_renamed {terms : List (Term ω)} (hmono : StrictMonoOn f {v | v ∈ varsOf terms}) :
    varsOf (terms.map (Term.renamed f)) = (varsOf terms).map f := by
  have hids : (terms.map (Term.renamed f)).flatMap (fun term => term.key.vars) =
      (terms.flatMap fun term => term.key.vars).map f := by
    simp [List.flatMap_map, List.map_flatMap, Term.renamed]
  rw [varsOf, hids]
  exact ascending_map hmono fun v hv => mem_ascending.mpr hv

variable [OfNat ω 0] [Add ω]

theorem ofTerms_renamed {terms : List (Term ω)}
    (hmono : StrictMonoOn f {v | v ∈ varsOf terms}) :
    ofTerms (terms.map (Term.renamed f)) = (ofTerms terms).renamed f := by
  have hentries : (terms.map (Term.renamed f)).map
        (fun term => (term.key.place (((varsOf terms).map f).idxOf ·), term.weight)) =
      terms.map fun term => (term.key.place ((varsOf terms).idxOf ·), term.weight) := by
    rw [List.map_map]
    refine List.map_congr_left fun term hterm => Prod.ext ?_ rfl
    exact Key.place_renamed hmono.injOn (fun v hv => hv)
      fun v hv => mem_varsOf.mpr ⟨term, hterm, hv⟩
  simp only [ofTerms, varsOf_renamed hmono, hentries, List.length_map]
  rfl

end Graph

/-! ## Maps -/

/-- The weights of a map are read alike under all keys, but for what a fault says. -/
def KeyBlind (weigh : Value → Value → Except Fault ω) : Prop :=
  ∀ key key' weight w, weigh key weight = .ok w → weigh key' weight = .ok w

theorem Coefficients.keyBlind_readWeight : KeyBlind readWeight := by
  intro key key' weight w hweight
  cases weight with
  | int i => exact hweight
  | float x =>
    simp only [readWeight] at hweight ⊢
    split at hweight
    · rename_i hfinite
      rwa [if_pos hfinite]
    · cases hweight
  | none | bool _ | text _ | list _ | tuple _ | dict _ => cases hweight

namespace Coefficients

/-- The keys of the second map name the ids of those of the first, sent on by a function, entry by
    entry and in any notation.  The weights are the same. -/
def Renamed (f : Int → Int) (coefficients coefficients' : Coefficients) : Prop :=
  List.Forall₂
    (fun entry entry' => entry'.2 = entry.2 ∧
      ∀ key, Key.read entry.1 = .ok key → Key.read entry'.1 = .ok (key.renamed f))
    coefficients coefficients'

variable {weigh : Value → Value → Except Fault ω} {coefficients coefficients' : Coefficients}

theorem readTerms_renamed (hblind : KeyBlind weigh)
    (hrenamed : coefficients.Renamed f coefficients') {terms : List (Term ω)}
    (hread : coefficients.readTerms weigh = .ok terms) :
    coefficients'.readTerms weigh = .ok (terms.map (Term.renamed f)) := by
  rw [readTerms_eq_ok_iff] at hread ⊢
  induction hrenamed generalizing terms with
  | nil =>
    cases hread
    exact .nil
  | @cons entry entry' rest rest' hentry _ ih =>
    obtain ⟨hweight, hkey⟩ := hentry
    cases hread with
    | cons hterm hterms =>
      refine .cons ⟨hkey _ hterm.1, ?_⟩ (ih hterms)
      rw [hweight]
      exact hblind _ _ _ _ hterm.2

end Coefficients

/-- A map with other names for its variables has the same graph, under these names. -/
theorem Graph.build_renamed [OfNat ω 0] [Add ω] {weigh : Value → Value → Except Fault ω}
    {coefficients coefficients' : Coefficients} {graph : Graph ω} (hblind : KeyBlind weigh)
    (hbuild : Graph.build weigh coefficients = .ok graph)
    (hmono : StrictMonoOn f {v | v ∈ graph.vars})
    (hrenamed : coefficients.Renamed f coefficients') :
    Graph.build weigh coefficients' = .ok (graph.renamed f) := by
  obtain ⟨terms, hread, rfl⟩ := build_eq_ok_iff.mp hbuild
  exact build_eq_ok_iff.mpr
    ⟨_, Coefficients.readTerms_renamed hblind hrenamed hread, ofTerms_renamed hmono⟩

end Annealing
