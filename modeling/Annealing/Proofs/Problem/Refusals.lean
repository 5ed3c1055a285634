import Annealing.Proofs.Decimal.Integers
import Annealing.Proofs.Graph.WellFormed

/-! # Which maps have no graph

A map of coefficients is refused for its first entry that cannot be read, and the key of an entry is
read before its weight.  The keys alone are read in the same order, so that the first key that is
refused may stand behind a weight that is.

* `Unweighable` — the weights that are no finite doubles, each with its fault.
* `Refused` — the entries that cannot be read.
* `Graph.build_eq_error_iff`, `vars_eq_error_iff` — a graph, and the variables alone, are refused
  with the fault of the first entry that is.
* `vars_of_build` — the variables of a graph are those of the keys.
-/

namespace Annealing

namespace Coefficients

/-- The weight of a key is no finite double, and this is the fault. -/
inductive Unweighable (key : Value) : Value → Fault → Prop where
  -- Neither an integer nor a double; a truth value is neither of the two.
  | notReal {weight : Value} (hint : ∀ i, weight ≠ .int i) (hfloat : ∀ x, weight ≠ .float x) :
      Unweighable key weight (.notReal key weight)
  -- A double that is infinite, or not a number.
  | notFinite {x : Float} (hx : x.isFinite = false) :
      Unweighable key (.float x) (.notFinite key x)
  -- An integer that no double is near to.
  | overflow {i : Int} (hi : Decimal.overflowBound ≤ i.natAbs) :
      Unweighable key (.int i) .overflow

/-- The entry cannot be read: its key cannot, or else its weight. -/
inductive Refused (entry : Value × Value) : Fault → Prop where
  | key {fault : Fault} (hkey : Key.read entry.1 = .error fault) : Refused entry fault
  | weight {key : Key} {fault : Fault} (hkey : Key.read entry.1 = .ok key)
      (hweight : Unweighable entry.1 entry.2 fault) : Refused entry fault

/-! ## Single entries -/

theorem readWeight_eq_error_iff {key weight : Value} {fault : Fault} :
    readWeight key weight = .error fault ↔ Unweighable key weight fault := by
  constructor
  · intro herror
    cases weight with
    | int i =>
      cases hofInt : Decimal.ofInt? i with
      | some x => simp [readWeight, hofInt] at herror
      | none =>
        simp only [readWeight, hofInt, Except.error.injEq] at herror
        subst herror
        exact .overflow (Decimal.ofInt?_eq_none_iff.mp hofInt)
    | float x =>
      cases hx : x.isFinite with
      | true => simp [readWeight, hx] at herror
      | false =>
        simp only [readWeight, hx, Bool.false_eq_true, if_false, Except.error.injEq] at herror
        subst herror
        exact .notFinite hx
    | none | bool b | text s | list items | tuple items | dict entries =>
      cases herror
      exact .notReal (by simp) (by simp)
  · intro hunweighable
    cases hunweighable with
    | notReal hint hfloat =>
      cases weight with
      | int i => exact absurd rfl (hint i)
      | float x => exact absurd rfl (hfloat x)
      | none | bool b | text s | list items | tuple items | dict entries => rfl
    | notFinite hx => simp [readWeight, hx]
    | overflow hi => simp [readWeight, Decimal.ofInt?_eq_none_iff.mpr hi]

theorem readEntry_eq_error_iff {entry : Value × Value} {fault : Fault} :
    readEntry readWeight entry = .error fault ↔ Refused entry fault := by
  cases hkey : Key.read entry.1 with
  | error other =>
    have hread : readEntry readWeight entry = .error other := by
      simp [readEntry, hkey, bind, Except.bind]
    rw [hread, Except.error.injEq]
    constructor
    · rintro rfl
      exact .key hkey
    · rintro (hfault | ⟨hok, -⟩)
      · exact Except.error.inj (hkey.symm.trans hfault)
      · cases hkey.symm.trans hok
  | ok key =>
    have hread : readEntry readWeight entry =
        (readWeight entry.1 entry.2).map fun weight => ⟨key, weight⟩ := by
      cases hweight : readWeight entry.1 entry.2 <;>
        simp [readEntry, hkey, hweight, bind, Except.bind, pure, Except.pure, Except.map]
    have hrefused : Refused entry fault ↔ Unweighable entry.1 entry.2 fault := by
      constructor
      · rintro (hfault | ⟨-, hweight⟩)
        · cases hkey.symm.trans hfault
        · exact hweight
      · exact .weight hkey
    rw [hread, hrefused, ← readWeight_eq_error_iff]
    cases readWeight entry.1 entry.2 <;> simp [Except.map]

/-! ## Whole maps -/

/-- The variables of a map are refused for the first key that is, whatever the weights are. -/
theorem vars_eq_error_iff {coefficients : Coefficients} {fault : Fault} :
    coefficients.vars = .error fault ↔
      FirstFault (fun entry fault => Key.read entry.1 = .error fault) coefficients fault := by
  rw [← mapM_eq_error_iff]
  change _ ↔ coefficients.readKeys = .error fault
  unfold vars
  cases coefficients.readKeys <;> simp [bind, Except.bind, pure, Except.pure]

end Coefficients

namespace Graph

open Coefficients

theorem build_eq_error_iff {coefficients : Coefficients} {fault : Fault} :
    build readWeight coefficients = .error fault ↔ FirstFault Refused coefficients fault := by
  have hread : coefficients.readTerms readWeight = .error fault ↔
      FirstFault Refused coefficients fault := by
    simp only [readTerms, mapM_eq_error_iff, readEntry_eq_error_iff]
  rw [← hread, build]
  cases coefficients.readTerms readWeight <;> simp [Except.map]

/-- Only a map that has a graph leaves a line in the log, and only one. -/
theorem buildLogged_eq_error_iff {ω : Type} [OfNat ω 0] [Add ω]
    {weigh : Value → Value → Except Fault ω} {coefficients : Coefficients} {fault : Fault}
    {log : List String} :
    buildLogged weigh coefficients = (log, .error fault) ↔
      log = [] ∧ build weigh coefficients = .error fault := by
  unfold buildLogged
  cases build weigh coefficients <;> simp [eq_comm]

/-- The variables of a graph are those that the keys alone give. -/
theorem vars_of_build {ω : Type} [OfNat ω 0] [Add ω] {weigh : Value → Value → Except Fault ω}
    {coefficients : Coefficients} {graph : Graph ω}
    (hbuild : build weigh coefficients = .ok graph) : coefficients.vars = .ok graph.vars := by
  obtain ⟨terms, hread, rfl⟩ := build_eq_ok_iff.mp hbuild
  rw [vars_of_readTerms hread, vars_ofTerms]

end Graph

end Annealing
