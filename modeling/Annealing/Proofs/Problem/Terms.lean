import Annealing.Graph.Basic
import Mathlib.Data.List.Forall2
import Mathlib.Data.List.Pairwise

/-! # Terms and variables of a coefficient map

A map that is accepted has one term per entry.  This module says which:

* `FirstFault` — the fault of the first item that has one, which is that of the whole list.
* `readTerms_eq_ok_iff` — a map is read entry by entry, key and weight.
* `vars_of_readTerms` — the variables of the map are those of its terms.
* `readTerms_image` — other weights under the same keys make other weights of the same terms.
* `mem_ascending`, `ascending_pairwise` — what `ascending` keeps and how it orders it.
-/

namespace Annealing

/-! ## Ascending lists -/

theorem mem_insertAscending (i j : Int) (is : List Int) :
    j ∈ insertAscending i is ↔ j = i ∨ j ∈ is := by
  induction is with
  | nil => simp [insertAscending]
  | cons k rest ih =>
    simp only [insertAscending]
    split
    · simp
    · split
      · rename_i hik
        subst hik
        simp
      · rw [List.mem_cons, ih, List.mem_cons]
        exact or_left_comm

theorem insertAscending_pairwise (i : Int) {is : List Int} (hsorted : is.Pairwise (· < ·)) :
    (insertAscending i is).Pairwise (· < ·) := by
  induction is with
  | nil => simp [insertAscending]
  | cons k rest ih =>
    obtain ⟨hk, hrest⟩ := List.pairwise_cons.mp hsorted
    simp only [insertAscending]
    split
    · rename_i hik
      refine List.pairwise_cons.mpr ⟨?_, hsorted⟩
      intro j hj
      rcases List.mem_cons.mp hj with rfl | hj
      · exact hik
      · exact Int.lt_trans hik (hk j hj)
    · split
      · exact hsorted
      · refine List.pairwise_cons.mpr ⟨?_, ih hrest⟩
        intro j hj
        rcases (mem_insertAscending i j rest).mp hj with rfl | hj
        · omega
        · exact hk j hj

theorem foldl_insertAscending (is acc : List Int) (hsorted : acc.Pairwise (· < ·)) :
    (is.foldl (fun acc i => insertAscending i acc) acc).Pairwise (· < ·) ∧
      ∀ j, j ∈ is.foldl (fun acc i => insertAscending i acc) acc ↔ j ∈ is ∨ j ∈ acc := by
  induction is generalizing acc with
  | nil => exact ⟨hsorted, by simp⟩
  | cons i is ih =>
    obtain ⟨hpairwise, hmem⟩ := ih (insertAscending i acc) (insertAscending_pairwise i hsorted)
    refine ⟨hpairwise, fun j => ?_⟩
    rw [List.foldl_cons, hmem, mem_insertAscending, List.mem_cons]
    tauto

@[simp] theorem mem_ascending {j : Int} {is : List Int} : j ∈ ascending is ↔ j ∈ is := by
  simp [ascending, (foldl_insertAscending is [] List.Pairwise.nil).2 j]

theorem ascending_pairwise (is : List Int) : (ascending is).Pairwise (· < ·) :=
  (foldl_insertAscending is [] List.Pairwise.nil).1

/-- The variables of terms are the ids that some key names. -/
theorem Graph.mem_varsOf {ω : Type} {terms : List (Term ω)} {v : Int} :
    v ∈ Graph.varsOf terms ↔ ∃ term ∈ terms, v ∈ term.key.vars := by
  simp [Graph.varsOf]

/-! ## Reading entry by entry -/

/-- A list of readings succeeds if every single one does, and gives their results in order. -/
theorem mapM_eq_ok_iff {α β ε : Type} {f : α → Except ε β} {xs : List α} {ys : List β} :
    xs.mapM f = .ok ys ↔ List.Forall₂ (fun x y => f x = .ok y) xs ys := by
  induction xs generalizing ys with
  | nil => cases ys <;> simp [pure, Except.pure]
  | cons x xs ih =>
    rw [List.mapM_cons, List.forall₂_cons_left_iff]
    cases hx : f x with
    | error fault => simp [bind, Except.bind]
    | ok y =>
      cases hxs : xs.mapM f with
      | error fault => simp [bind, Except.bind, ← ih, hxs]
      | ok rest => simp [bind, Except.bind, pure, Except.pure, ← ih, hxs, eq_comm]

/-- The fault of the first item that has one. -/
def FirstFault {α ε : Type} (faulty : α → ε → Prop) (xs : List α) (fault : ε) : Prop :=
  ∃ before x after, xs = before ++ x :: after ∧ (∀ y ∈ before, ∀ other, ¬ faulty y other) ∧
    faulty x fault

section FirstFault

variable {α β ε : Type} {faulty : α → ε → Prop} {x : α} {xs : List α} {fault : ε}

theorem not_firstFault_nil : ¬ FirstFault faulty [] fault := by
  rintro ⟨before, x, after, hnil, -⟩
  simp at hnil

theorem firstFault_cons_iff :
    FirstFault faulty (x :: xs) fault ↔
      faulty x fault ∨ (∀ other, ¬ faulty x other) ∧ FirstFault faulty xs fault := by
  constructor
  · rintro ⟨before, y, after, hsplit, hbefore, hy⟩
    cases before with
    | nil =>
      cases hsplit
      exact .inl hy
    | cons z before =>
      cases hsplit
      obtain ⟨hx, hrest⟩ := List.forall_mem_cons.mp hbefore
      exact .inr ⟨hx, before, y, after, rfl, hrest, hy⟩
  · rintro (hx | ⟨hx, before, y, after, rfl, hbefore, hy⟩)
    · exact ⟨[], x, xs, rfl, by simp, hx⟩
    · exact ⟨x :: before, y, after, rfl, List.forall_mem_cons.mpr ⟨hx, hbefore⟩, hy⟩

theorem firstFault_map_iff {γ : Type} {g : γ → α} {ys : List γ} :
    FirstFault faulty (ys.map g) fault ↔ FirstFault (fun y => faulty (g y)) ys fault := by
  induction ys with
  | nil => exact iff_of_false not_firstFault_nil not_firstFault_nil
  | cons y ys ih => rw [List.map_cons, firstFault_cons_iff, firstFault_cons_iff, ih]

/-- There is a first fault if there is any. -/
theorem exists_firstFault_iff :
    (∃ fault, FirstFault faulty xs fault) ↔ ∃ x ∈ xs, ∃ fault, faulty x fault := by
  constructor
  · rintro ⟨fault, before, x, after, rfl, -, hx⟩
    exact ⟨x, by simp, fault, hx⟩
  · rintro ⟨x, hmem, fault, hx⟩
    induction xs with
    | nil => cases hmem
    | cons y ys ih =>
      by_cases hy : ∃ first, faulty y first
      · obtain ⟨first, hfirst⟩ := hy
        exact ⟨first, firstFault_cons_iff.mpr (.inl hfirst)⟩
      · have hrest : x ∈ ys := (List.mem_cons.mp hmem).resolve_left fun h => hy ⟨fault, h ▸ hx⟩
        obtain ⟨first, hfirst⟩ := ih hrest
        exact ⟨first, firstFault_cons_iff.mpr (.inr ⟨not_exists.mp hy, hfirst⟩)⟩

/-- A list of readings fails with the fault of the first one that does. -/
theorem mapM_eq_error_iff {f : α → Except ε β} :
    xs.mapM f = .error fault ↔ FirstFault (fun x fault => f x = .error fault) xs fault := by
  induction xs with
  | nil => exact ⟨fun h => (by cases h), fun h => absurd h not_firstFault_nil⟩
  | cons x xs ih =>
    rw [firstFault_cons_iff, ← ih, List.mapM_cons]
    cases f x with
    | error other => simp [bind, Except.bind]
    | ok b => cases xs.mapM f <;> simp [bind, Except.bind, pure, Except.pure]

theorem forM_eq_error_iff {f : α → Except ε Unit} :
    xs.forM f = .error fault ↔ FirstFault (fun x fault => f x = .error fault) xs fault := by
  induction xs with
  | nil => exact ⟨fun h => (by cases h), fun h => absurd h not_firstFault_nil⟩
  | cons x xs ih =>
    rw [firstFault_cons_iff, ← ih, List.forM]
    cases f x <;> simp [bind, Except.bind]

end FirstFault

namespace Coefficients

variable {ω : Type} {weigh : Value → Value → Except Fault ω} {coefficients : Coefficients}
  {terms : List (Term ω)}

theorem readEntry_eq_ok_iff {entry : Value × Value} {term : Term ω} :
    readEntry weigh entry = .ok term ↔
      Key.read entry.1 = .ok term.key ∧ weigh entry.1 entry.2 = .ok term.weight := by
  obtain ⟨key, weight⟩ := term
  cases hkey : Key.read entry.1 with
  | error fault => simp [readEntry, hkey, bind, Except.bind]
  | ok key =>
    cases hweight : weigh entry.1 entry.2 <;>
      simp [readEntry, hkey, hweight, bind, Except.bind, pure, Except.pure]

theorem readTerms_eq_ok_iff :
    coefficients.readTerms weigh = .ok terms ↔
      List.Forall₂ (fun entry term => Key.read entry.1 = .ok term.key ∧
        weigh entry.1 entry.2 = .ok term.weight) coefficients terms := by
  simp only [readTerms, mapM_eq_ok_iff, readEntry_eq_ok_iff]

/-- The keys of a map that is read are those of its terms. -/
theorem readKeys_of_readTerms (hread : coefficients.readTerms weigh = .ok terms) :
    coefficients.readKeys = .ok (terms.map Term.key) := by
  rw [readTerms_eq_ok_iff] at hread
  rw [readKeys, mapM_eq_ok_iff, List.forall₂_map_right_iff]
  exact hread.imp fun _ _ h => h.1

theorem vars_of_readTerms (hread : coefficients.readTerms weigh = .ok terms) :
    coefficients.vars = .ok (Graph.varsOf terms) := by
  simp [Coefficients.vars, readKeys_of_readTerms hread, Graph.varsOf, List.flatMap_map, bind,
    Except.bind, pure, Except.pure]

end Coefficients

/-! ## Other weights under the same keys -/

section Images

variable {ω ω' : Type} {weigh : Value → Value → Except Fault ω}
  {weigh' : Value → Value → Except Fault ω'} {g : ω → ω'}
  {coefficients coefficients' : Coefficients}

/-- The same term, its weight sent on by a function. -/
def Term.image (g : ω → ω') (term : Term ω) : Term ω' :=
  ⟨term.key, g term.weight⟩

namespace Coefficients

/-- The entries of two maps have the same keys, one by one, and the weights of the second map are
    read as those of the first are, and then sent on by a function. -/
def Reweighed (g : ω → ω') (weigh : Value → Value → Except Fault ω)
    (weigh' : Value → Value → Except Fault ω') (coefficients coefficients' : Coefficients) : Prop :=
  List.Forall₂
    (fun entry entry' => entry'.1 = entry.1 ∧
      weigh' entry.1 entry'.2 = (weigh entry.1 entry.2).map g)
    coefficients coefficients'

theorem readTerms_image (hentries : Reweighed g weigh weigh' coefficients coefficients') :
    coefficients'.readTerms weigh' =
      (coefficients.readTerms weigh).map (List.map (Term.image g)) := by
  unfold readTerms
  induction hentries with
  | nil => rfl
  | @cons entry entry' rest rest' hentry _ ih =>
    obtain ⟨hkey, hweight⟩ := hentry
    have hread : readEntry weigh' entry' = (readEntry weigh entry).map (Term.image g) := by
      simp only [readEntry, hkey, hweight]
      cases Key.read entry.1 with
      | error fault => rfl
      | ok key => cases weigh entry.1 entry.2 <;> rfl
    rw [List.mapM_cons, List.mapM_cons, hread, ih]
    cases readEntry weigh entry with
    | error fault => rfl
    | ok term => cases rest.mapM (readEntry weigh) <;> rfl

end Coefficients

end Images

/-- A graph that is built is that of the terms of the map. -/
theorem Graph.build_eq_ok_iff {ω : Type} [OfNat ω 0] [Add ω]
    {weigh : Value → Value → Except Fault ω} {coefficients : Coefficients} {graph : Graph ω} :
    Graph.build weigh coefficients = .ok graph ↔
      ∃ terms, coefficients.readTerms weigh = .ok terms ∧ Graph.ofTerms terms = graph := by
  unfold Graph.build
  cases coefficients.readTerms weigh <;> simp [Except.map]

end Annealing
