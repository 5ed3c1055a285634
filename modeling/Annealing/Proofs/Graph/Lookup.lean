import Annealing.Proofs.Graph.States
import Annealing.Proofs.Graph.WellFormed

/-! # Variables, nodes and assignments

The node of a variable is its place among the ascending variables, and a search that halves the
places finds it.  Between states and assignments of all variables nothing is lost; an assignment of
some variables is filled up with zeros, and one that gives a value to anything else is refused.

* `rank_eq_halving` — the rank of a number is where the search by halving ends.
* `nodeOf_int_eq_ok_iff`, `nodeOf_int_eq_error_iff` — the node of a variable, and of no variable.
* `toState_assignmentOf` — the state of an assignment, bit by bit.
* `lookup_of_build` — all of it for a graph that is built.
-/

namespace Annealing

/-- Integers below a number: with each of them all lesser ones. -/
theorem Number.int_lt_of_lt {u v : Int} {a : Number} (huv : u < v)
    (hv : (Number.int v).lt a = true) : (Number.int u).lt a = true := by
  cases a with
  | int w =>
    simp only [Number.lt, decide_eq_true_eq] at hv ⊢
    exact Int.lt_trans huv hv
  | float x =>
    simp only [Number.lt, Decimal.intLtFloat] at hv ⊢
    cases hexact : Decimal.dyadic? x with
    | none => simpa [hexact] using hv
    | some d =>
      simp only [hexact, decide_eq_true_eq] at hv ⊢
      have hpositive : 0 < (d.denominator : Int) := by
        exact_mod_cast Nat.pow_pos (by decide : 0 < 2)
      exact Int.lt_trans (Int.mul_lt_mul_of_pos_right huv hpositive) hv

namespace Graph

/-! ## Searching by halving -/

/-- Search the places from `low` on and before `high` for the first one that is not below: look at
    the place in the middle, and go on in the half that is left. -/
def halving (below : Int → Bool) (vars : List Int) (low high : Nat) : Nat :=
  if low < high then
    let middle := (low + high) / 2
    if below (vars.getD middle 0) then halving below vars (middle + 1) high
    else halving below vars low middle
  else low
termination_by high - low

/-- Where just the places before one are below, the search between bounds around it ends there. -/
theorem halving_eq {below : Int → Bool} {vars : List Int} {place : Nat}
    (hbelow : ∀ i < vars.length, below (vars.getD i 0) = true ↔ i < place) {low high : Nat}
    (hlow : low ≤ place) (hhigh : place ≤ high) (hlength : high ≤ vars.length) :
    halving below vars low high = place := by
  fun_induction halving below vars low high with
  | case1 low high hlt middle hmiddle ih =>
    have hbefore : middle < place := (hbelow middle (by omega)).mp hmiddle
    exact ih (by omega) hhigh hlength
  | case2 low high hlt middle hmiddle ih =>
    have hfrom : ¬ middle < place := fun h => hmiddle ((hbelow middle (by omega)).mpr h)
    exact ih hlow (by omega) (by omega)
  | case3 low high hnot => omega

/-- Among ascending variables those before its rank are below a number, and no others. -/
theorem lt_iff_lt_rank {vars : List Int} (hascending : vars.Pairwise (· < ·)) (a : Number)
    {i : Nat} (hi : i < vars.length) :
    (Number.int (vars.getD i 0)).lt a = true ↔ i < rank a vars := by
  induction vars generalizing i with
  | nil => cases hi
  | cons u rest ih =>
    obtain ⟨hu, hrest⟩ := List.pairwise_cons.mp hascending
    by_cases hbelow : (Number.int u).lt a = true
    · have hcons : rank a (u :: rest) = rank a rest + 1 := by simp [rank, hbelow]
      cases i with
      | zero => simp [hcons, hbelow]
      | succ i =>
        rw [List.length_cons, Nat.add_lt_add_iff_right] at hi
        rw [hcons, List.getD_cons_succ, ih hrest hi, Nat.add_lt_add_iff_right]
    · have hnone : rank a (u :: rest) = 0 := by simp [rank, hbelow]
      cases i with
      | zero => simp [hnone, hbelow]
      | succ i =>
        rw [List.length_cons, Nat.add_lt_add_iff_right] at hi
        rw [hnone, List.getD_cons_succ, List.getD_eq_getElem _ _ hi]
        have habove := hu _ (List.getElem_mem hi)
        exact iff_of_false (fun h => hbelow (Number.int_lt_of_lt habove h)) (Nat.not_lt_zero _)

theorem rank_le (a : Number) (vars : List Int) : rank a vars ≤ vars.length :=
  (List.takeWhile_sublist _).length_le

/-- The search by halving ends at the rank of a number. -/
theorem rank_eq_halving {vars : List Int} (hascending : vars.Pairwise (· < ·)) (a : Number) :
    halving (fun u => (Number.int u).lt a) vars 0 vars.length = rank a vars :=
  halving_eq (fun _ hi => lt_iff_lt_rank hascending a hi) (Nat.zero_le _) (rank_le a vars) le_rfl

/-! ## The node of a variable -/

variable {ω : Type} {graph : Graph ω} {v : Int}

theorem nodeOf_of_not_mem (hv : v ∉ graph.vars) :
    graph.nodeOf (.int v) = .error (.missing (.int v)) := by
  simp only [nodeOf, Value.number?]
  cases hfound : graph.vars[rank (.int v) graph.vars]? with
  | none => rfl
  | some u =>
    have hne : u ≠ v := fun h => hv (h ▸ List.mem_of_getElem? hfound)
    simp [Number.eq, hne]

/-- A node is the place of its variable. -/
theorem nodeOf_int_eq_ok_iff (hascending : graph.vars.Pairwise (· < ·)) {i : Nat} :
    graph.nodeOf (.int v) = .ok i ↔ graph.vars[i]? = some v := by
  have hnodup : graph.vars.Nodup := hascending.imp fun h => h.ne
  by_cases hv : v ∈ graph.vars
  · rw [nodeOf_of_mem hascending hv, Except.ok.injEq]
    constructor
    · rintro rfl
      exact List.getElem?_idxOf hv
    · intro hi
      obtain ⟨hlt, rfl⟩ := List.getElem?_eq_some_iff.mp hi
      exact hnodup.idxOf_getElem i hlt
  · rw [nodeOf_of_not_mem hv]
    exact iff_of_false (fun h => by cases h) fun hi => hv (List.mem_of_getElem? hi)

/-- Only what is not a variable has no node. -/
theorem nodeOf_int_eq_error_iff (hascending : graph.vars.Pairwise (· < ·)) {fault : Fault} :
    graph.nodeOf (.int v) = .error fault ↔ v ∉ graph.vars ∧ fault = .missing (.int v) := by
  by_cases hv : v ∈ graph.vars
  · rw [nodeOf_of_mem hascending hv]
    exact iff_of_false (fun h => by cases h) fun h => h.1 hv
  · rw [nodeOf_of_not_mem hv, Except.error.injEq]
    exact ⟨fun h => ⟨hv, h.symm⟩, fun h => h.2.symm⟩

/-! ## The state of an assignment -/

/-- Writing the entries of an assignment fails with the fault of the first entry whose variable has
    no node, whatever is written before. -/
theorem foldlM_assign_eq_error_iff {assignment : Assignment} {fault : Fault} (state : State) :
    assignment.foldlM graph.assign state = .error fault ↔
      FirstFault (fun entry fault => graph.nodeOf entry.1 = .error fault) assignment fault := by
  induction assignment generalizing state with
  | nil => exact ⟨fun h => (by cases h), fun h => absurd h not_firstFault_nil⟩
  | cons entry rest ih =>
    rw [firstFault_cons_iff, List.foldlM_cons, assign]
    cases graph.nodeOf entry.1 with
    | error missing => simp [bind, Except.bind]
    | ok i =>
      have hrest := ih (state.set! i (if entry.2.isTruthy then 1 else 0))
      simp [bind, Except.bind, pure, Except.pure, ← hrest]

/-- An assignment is refused if it gives a value to what is no variable, and the first such id is
    the fault. -/
theorem toState_assignmentOf_eq_error_iff (hascending : graph.vars.Pairwise (· < ·))
    {values : List (Int × Value)} {fault : Fault} :
    graph.toState (assignmentOf values) = .error fault ↔
      ∃ before entry after, values = before ++ entry :: after ∧
        (∀ earlier ∈ before, earlier.1 ∈ graph.vars) ∧
        entry.1 ∉ graph.vars ∧ fault = .missing (.int entry.1) := by
  have hnode (u : Int) : (∀ other, ¬ (u ∉ graph.vars ∧ other = Fault.missing (.int u))) ↔
      u ∈ graph.vars :=
    ⟨fun h => not_not.mp fun hu => h _ ⟨hu, rfl⟩, fun hu _ h => h.1 hu⟩
  rw [toState, foldlM_assign_eq_error_iff, assignmentOf, firstFault_map_iff]
  simp only [FirstFault, nodeOf_int_eq_error_iff hascending, hnode]

/-- Does an assignment give a variable a value that counts as true?  Of several values for it the
    last one does; a map has one at most. -/
def setsTrue (values : List (Int × Value)) (v : Int) : Bool :=
  (values.reverse.lookup v).any Value.isTruthy

/-- An assignment of variables sets the nodes of those that it gives a value that counts as true,
    and no others. -/
theorem exists_toState_assignmentOf (hascending : graph.vars.Pairwise (· < ·))
    {values : List (Int × Value)} (hvars : ∀ entry ∈ values, entry.1 ∈ graph.vars) :
    ∃ state, graph.toState (assignmentOf values) = .ok state ∧
      graph.toAssignment state.toList =
        graph.vars.map fun v => (v, if setsTrue values v then 1 else 0) := by
  obtain ⟨state, hstate, hsize, hbits⟩ := foldlM_assign hascending values hvars
    (Array.replicate graph.size 0) (by simp)
  refine ⟨state, hstate, ?_⟩
  rw [toAssignment_eq_map hascending hsize]
  refine List.map_congr_left fun v hv => ?_
  have hlt : graph.vars.idxOf v < graph.size := List.idxOf_lt_length_of_mem hv
  have hzero : State.bit (Array.replicate graph.size 0) (graph.vars.idxOf v) = 0 := by
    simp [State.bit, hlt]
  rw [hbits v hv, hzero, setsTrue]
  cases values.reverse.lookup v <;> rfl

/-- A graph that is built.  Its variables are ascending, so the rank of a number among them is where
    a search by halving ends.  The node of an integer is its place among the variables, and what is
    no variable has no node.  A state is got back from its assignment.  An assignment of integers is
    refused if and only if one of them is no variable, the first of which is the fault; otherwise
    its state gives each variable one or zero, as the assignment gives it a value that counts as
    true or not. -/
theorem lookup_of_build [OfNat ω 0] [Add ω] {weigh : Value → Value → Except Fault ω}
    {coefficients : Coefficients} (hbuild : Graph.build weigh coefficients = .ok graph) :
    (∀ a, rank a graph.vars =
      halving (fun u => (Number.int u).lt a) graph.vars 0 graph.size) ∧
    (∀ (v : Int) (i : Nat), graph.nodeOf (.int v) = .ok i ↔
      i < graph.size ∧ graph.vars[i]? = some v) ∧
    (∀ (v : Int) (fault : Fault), graph.nodeOf (.int v) = .error fault ↔
      v ∉ graph.vars ∧ fault = .missing (.int v)) ∧
    (∀ state, State.Binary graph.size state →
      graph.toState (assignmentOf ((graph.toAssignment state.toList).map fun entry =>
        (entry.1, .int entry.2.toNat))) = .ok state) ∧
    ∀ values : List (Int × Value),
      (∀ fault, graph.toState (assignmentOf values) = .error fault ↔
        ∃ before entry after, values = before ++ entry :: after ∧
          (∀ earlier ∈ before, earlier.1 ∈ graph.vars) ∧
          entry.1 ∉ graph.vars ∧ fault = .missing (.int entry.1)) ∧
      ((∀ entry ∈ values, entry.1 ∈ graph.vars) →
        ∃ state, graph.toState (assignmentOf values) = .ok state ∧
          graph.toAssignment state.toList =
            graph.vars.map fun v => (v, if setsTrue values v then 1 else 0)) := by
  have hascending := (wellFormed_of_build hbuild).ascending
  refine ⟨fun a => (rank_eq_halving hascending a).symm, fun v i => ?_,
    fun v fault => nodeOf_int_eq_error_iff hascending, fun state hbinary => ?_, fun values =>
      ⟨fun fault => toState_assignmentOf_eq_error_iff hascending,
        exists_toState_assignmentOf hascending⟩⟩
  · rw [nodeOf_int_eq_ok_iff hascending]
    exact ⟨fun hi => ⟨(List.getElem?_eq_some_iff.mp hi).1, hi⟩, fun h => h.2⟩
  · rw [assignmentOf, List.map_map]
    exact toState_toAssignment hascending hbinary

end Graph

/-! ## An example

Half of the variables, in no order and with values of several kinds, then with an id that is no
variable. -/

theorem Graph.lookup_of_build_sample :
    Graph.build Coefficients.readExact Coefficients.sample = .ok Graph.sample ∧
      Graph.sample.nodeOf (.int 5) = .ok 3 ∧
      Graph.sample.nodeOf (.int 6) = .error (.missing (.int 6)) ∧
      (∃ state, Graph.sample.toState
          (assignmentOf [(7, .text "0"), (-3, .float 0), (1, .list [])]) = .ok state ∧
        Graph.sample.toAssignment state.toList = [(-3, 0), (0, 0), (1, 0), (5, 0), (7, 1)]) ∧
      Graph.sample.toState (assignmentOf [(7, .int 1), (6, .none), (8, .int 1)]) =
        .error (.missing (.int 6)) := by
  obtain ⟨-, hnode, hnone, -, hstate⟩ := lookup_of_build build_sample
  refine ⟨build_sample, (hnode 5 3).mpr ⟨by decide, rfl⟩,
    (hnone 6 _).mpr ⟨by decide, rfl⟩, ?_, ?_⟩
  · exact (hstate [(7, .text "0"), (-3, .float 0), (1, .list [])]).2 (by decide)
  · exact ((hstate [(7, .int 1), (6, .none), (8, .int 1)]).1 _).mpr
      ⟨[(7, .int 1)], (6, .none), [(8, .int 1)], rfl, by decide, by decide, rfl⟩

end Annealing
