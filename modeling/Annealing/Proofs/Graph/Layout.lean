import Annealing.Graph.Basic
import Mathlib.Algebra.GroupWithZero.Nat
import Mathlib.Data.List.Basic

/-! # Neighbour lists in flat arrays

`Graph.ofRows` lays neighbour lists one after the other.  They can be read back, and nothing lies
between them:

* `neighbours_ofRows` — the neighbours of a node are the row that was laid out for it.
* `flatMap_slots_ofRows` — the slots of all nodes, in order, are all slots there are.
-/

namespace Annealing.Graph

variable {ω : Type}

/-! ## Starts -/

@[simp] theorem length_starts (next : Nat) (counts : List Nat) :
    (starts next counts).length = counts.length := by
  induction counts generalizing next with
  | nil => rfl
  | cons count counts ih => simp [starts, ih]

/-- A list starts where those before it end. -/
theorem getElem_starts (next : Nat) (counts : List Nat) (i : Nat)
    (hi : i < (starts next counts).length) :
    (starts next counts)[i] = next + (counts.take i).sum := by
  induction counts generalizing next i with
  | nil => simp at hi
  | cons count counts ih =>
    cases i with
    | zero => simp [starts]
    | succ i => simp [starts, ih, Nat.add_assoc]

/-- Runs that start one after the other fill a range. -/
theorem flatten_zipWith_starts (next : Nat) (counts : List Nat) :
    (List.zipWith List.range' (starts next counts) counts).flatten =
      List.range' next counts.sum := by
  induction counts generalizing next with
  | nil => rfl
  | cons count counts ih =>
    simp only [starts, List.zipWith_cons_cons, List.flatten_cons, ih, List.sum_cons]
    rw [List.range'_append_1]

/-! ## Slots and neighbours -/

section Rows

variable (vars : List Int) (linear : Array ω) (rows : List (List (Nat × ω)))

theorem slots_ofRows {i : Nat} (hi : i < rows.length) :
    (ofRows vars linear rows).slots i =
      List.range' (rows.take i).flatten.length rows[i].length := by
  have hstart : (starts 0 (rows.map List.length))[i]? = some (rows.take i).flatten.length := by
    rw [List.getElem?_eq_getElem (by simpa using hi), getElem_starts, List.length_flatten,
      List.map_take, Nat.zero_add]
  simp only [slots, ofRows, Array.getD_eq_getD_getElem?, List.getElem?_toArray, hstart,
    List.getElem?_map, List.getElem?_eq_getElem hi, Option.map_some, Option.getD_some]

theorem slots_ofRows_of_le {i : Nat} (hi : rows.length ≤ i) :
    (ofRows vars linear rows).slots i = [] := by
  simp [slots, ofRows, hi]

/-- What lies at a position of a row lies as far behind the start of the row. -/
theorem getElem?_flatten_row {i : Nat} (hi : i < rows.length) {m : Nat}
    (hm : m < rows[i].length) :
    rows.flatten[(rows.take i).flatten.length + m]? = some rows[i][m] := by
  have hsplit : rows.flatten =
      (rows.take i).flatten ++ (rows[i] ++ (rows.drop (i + 1)).flatten) := by
    conv_lhs => rw [← List.take_append_drop i rows, List.flatten_append,
      List.drop_eq_getElem_cons hi, List.flatten_cons]
  rw [hsplit, List.getElem?_append_right (Nat.le_add_right _ _), Nat.add_sub_cancel_left,
    List.getElem?_append_left hm, List.getElem?_eq_getElem hm]

/-- The neighbours of a node are the row that was laid out for it. -/
theorem neighbours_ofRows [OfNat ω 0] {i : Nat} (hi : i < rows.length) :
    (ofRows vars linear rows).neighbours i = rows[i] := by
  rw [neighbours, slots_ofRows vars linear rows hi]
  apply List.ext_getElem
  · simp
  · intro m _ hm
    have hslot := getElem?_flatten_row rows hi hm
    simp only [List.getElem_map, List.getElem_range', Nat.one_mul, ofRows,
      Array.getD_eq_getD_getElem?, List.getElem?_toArray, List.getElem?_map, hslot,
      Option.map_some, Option.getD_some]

theorem neighbours_ofRows_of_le [OfNat ω 0] {i : Nat} (hi : rows.length ≤ i) :
    (ofRows vars linear rows).neighbours i = [] := by
  simp [neighbours, slots_ofRows_of_le vars linear rows hi]

theorem edgeCount_ofRows :
    (ofRows vars linear rows).edgeCount = (rows.map List.length).sum := by
  simp only [edgeCount, ofRows, List.size_toArray, List.length_map, List.length_flatten]

/-- The slots of all nodes, in order, are all slots there are: no two nodes share one, and none
    is left out. -/
theorem flatMap_slots_ofRows :
    (List.range rows.length).flatMap (ofRows vars linear rows).slots =
      List.range (ofRows vars linear rows).edgeCount := by
  have hslots : (List.range rows.length).map (ofRows vars linear rows).slots =
      List.zipWith List.range' (starts 0 (rows.map List.length)) (rows.map List.length) := by
    apply List.ext_getElem
    · simp
    · intro i hi _
      have hi : i < rows.length := by simpa using hi
      simp [slots, ofRows, hi]
  rw [List.flatMap_def, hslots, flatten_zipWith_starts, edgeCount_ofRows,
    List.range_eq_range']

end Rows

end Annealing.Graph
