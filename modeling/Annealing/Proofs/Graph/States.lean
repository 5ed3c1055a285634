import Annealing.Anneal.Flip
import Annealing.Proofs.Problem.Terms
import Mathlib.Data.Finset.Basic
import Mathlib.Data.Finset.Range
import Mathlib.Data.List.Basic

/-! # States and assignments

A state of a graph is told by the set of its nodes that are set.

* `State.Binary` — one byte per node, zero or one; `State.support` — the nodes that are set.
* `support_flip_of_zero`, `support_flip_of_one` — flipping a bit puts its node into the set or
  takes it out.
* `foldlM_assign` — values that are written into a state, one variable after the other.
* `toState_of_values` — an assignment of all variables gives the state with these bits.
* `exists_toState` — an assignment of some variables gives a state, whatever the values are.
* `toState_toAssignment` — the assignment of a state gives the state again.
-/

namespace Annealing

namespace State

/-! ## Bits -/

/-- A state of `n` nodes, with no byte but zero and one. -/
structure Binary (n : Nat) (state : State) : Prop where
  size_eq : state.size = n
  zero_or_one : ∀ i, state.bit i = 0 ∨ state.bit i = 1

theorem Binary.of_mem {n : Nat} {state : State} (hbinary : Binary n state) {b : UInt8}
    (hb : b ∈ state) : b = 0 ∨ b = 1 := by
  obtain ⟨i, hi, rfl⟩ := Array.mem_iff_getElem.mp hb
  have hbit : state.bit i = state[i] := by
    unfold bit Array.getD
    rw [dif_pos hi]
    rfl
  exact hbit ▸ hbinary.zero_or_one i

/-- The state in which no node is set. -/
theorem binary_zeros (n : Nat) : Binary n (Array.replicate n 0) where
  size_eq := by simp
  zero_or_one i := by
    left
    by_cases hi : i < n <;> simp [bit, hi]

/-- Writing a zero or a one keeps a state binary. -/
theorem Binary.set {n : Nat} {state : State} (hbinary : Binary n state) {i : Nat} {b : UInt8}
    (hb : b = 0 ∨ b = 1) : Binary n (state.set! i b) where
  size_eq := by simp [hbinary.size_eq]
  zero_or_one j := by
    have hj := hbinary.zero_or_one j
    simp only [bit, Array.set!_eq_setIfInBounds, Array.getD_eq_getD_getElem?,
      Array.getElem?_setIfInBounds] at hj ⊢
    split
    · split
      · exact hb
      · exact .inl rfl
    · exact hj

/-- A state is told by its bits. -/
theorem ext_bit {state other : State} (hsize : state.size = other.size)
    (hbit : ∀ i < state.size, state.bit i = other.bit i) : state = other := by
  apply Array.ext hsize
  intro i hi hother
  have hsame := hbit i hi
  simpa [bit, hi, hother] using hsame

/-- The nodes that are set. -/
def support (n : Nat) (state : State) : Finset Nat :=
  (Finset.range n).filter fun i => state.bit i = 1

@[simp] theorem mem_support {n i : Nat} {state : State} :
    i ∈ state.support n ↔ i < n ∧ state.bit i = 1 := by
  simp [support]

/-! ## Flips -/

@[simp] theorem size_flip (state : State) (i : Nat) : (state.flip i).size = state.size := by
  simp [flip]

theorem bit_flip_self {state : State} {i : Nat} (hi : i < state.size) :
    (state.flip i).bit i = if state.bit i = 0 then 1 else 0 := by
  simp [flip, bit, hi, Array.getElem_modify]

theorem bit_flip_of_ne {state : State} {i j : Nat} (hne : j ≠ i) :
    (state.flip i).bit j = state.bit j := by
  simp [flip, bit, Array.getD_eq_getD_getElem?, Array.getElem?_modify, Ne.symm hne]

theorem Binary.flip {n : Nat} {state : State} (hbinary : Binary n state) {i : Nat} (hi : i < n) :
    Binary n (state.flip i) where
  size_eq := by rw [size_flip, hbinary.size_eq]
  zero_or_one j := by
    by_cases hji : j = i
    · subst hji
      rw [bit_flip_self (by rw [hbinary.size_eq]; exact hi)]
      split <;> simp
    · rw [bit_flip_of_ne hji]
      exact hbinary.zero_or_one j

/-- Flipping a bit twice gives the state again. -/
theorem flip_flip {n : Nat} {state : State} (hbinary : Binary n state) {i : Nat} (hi : i < n) :
    (state.flip i).flip i = state := by
  have hsize : i < state.size := hbinary.size_eq.symm ▸ hi
  apply ext_bit
  · simp
  · intro j _
    by_cases hji : j = i
    · subst hji
      rw [bit_flip_self (by simpa using hsize), bit_flip_self hsize]
      rcases hbinary.zero_or_one j with hzero | hone
      · simp [hzero]
      · simp [hone]
    · rw [bit_flip_of_ne hji, bit_flip_of_ne hji]

theorem flip_comm (state : State) (i j : Nat) : (state.flip i).flip j = (state.flip j).flip i := by
  apply Array.ext_getElem?
  intro k
  simp only [flip, Array.getElem?_modify]
  by_cases hi : i = k
  · by_cases hj : j = k <;> simp [hi, hj]
  · by_cases hj : j = k <;> simp [hi, hj]

/-- Flip a bit, or leave the state as it is. -/
def flipIf (flips : Bool) (state : State) (i : Nat) : State :=
  if flips then state.flip i else state

@[simp] theorem size_flipIf (flips : Bool) (state : State) (i : Nat) :
    (state.flipIf flips i).size = state.size := by
  cases flips
  · rfl
  · exact size_flip state i

/-- What is done at two nodes may be done in either order. -/
theorem flipIf_comm (flips flips' : Bool) (state : State) (i j : Nat) :
    (state.flipIf flips i).flipIf flips' j = (state.flipIf flips' j).flipIf flips i := by
  cases flips
  · rfl
  · cases flips'
    · rfl
    · exact flip_comm state i j

theorem support_flip_of_zero {n : Nat} {state : State} (hbinary : Binary n state) {i : Nat}
    (hi : i < n) (hzero : state.bit i = 0) :
    (state.flip i).support n = insert i (state.support n) := by
  ext j
  rw [Finset.mem_insert, mem_support, mem_support]
  by_cases hji : j = i
  · subst hji
    simp [bit_flip_self (hbinary.size_eq.symm ▸ hi), hzero, hi]
  · simp [bit_flip_of_ne hji, hji]

theorem support_flip_of_one {n : Nat} {state : State} (hbinary : Binary n state) {i : Nat}
    (hi : i < n) (hone : state.bit i = 1) :
    (state.flip i).support n = (state.support n).erase i := by
  ext j
  rw [Finset.mem_erase, mem_support, mem_support]
  by_cases hji : j = i
  · subst hji
    simp [bit_flip_self (hbinary.size_eq.symm ▸ hi), hone]
  · simp [bit_flip_of_ne hji, hji]

end State

/-! ## Looking variables up -/

namespace Graph

variable {ω : Type} {graph : Graph ω}

/-- Among ascending variables, as many are less than one of them as come before it. -/
theorem rank_of_mem {vars : List Int} (hascending : vars.Pairwise (· < ·)) {v : Int}
    (hv : v ∈ vars) : rank (.int v) vars = vars.idxOf v := by
  induction vars with
  | nil => simp at hv
  | cons u rest ih =>
    obtain ⟨hu, hrest⟩ := List.pairwise_cons.mp hascending
    rcases List.mem_cons.mp hv with rfl | hv
    -- Nothing is less than the least variable.
    · simp [rank, Number.lt]
    · have huv : u < v := hu v hv
      have hcons : rank (.int v) (u :: rest) = rank (.int v) rest + 1 := by
        simp [rank, Number.lt, huv]
      rw [hcons, ih hrest hv, List.idxOf_cons_ne rest huv.ne]

theorem nodeOf_of_mem (hascending : graph.vars.Pairwise (· < ·)) {v : Int} (hv : v ∈ graph.vars) :
    graph.nodeOf (.int v) = .ok (graph.vars.idxOf v) := by
  have hlt := List.idxOf_lt_length_of_mem hv
  simp [nodeOf, Value.number?, rank_of_mem hascending hv, List.getElem?_eq_getElem hlt,
    Number.eq]

/-- Values by variable, as an assignment. -/
def assignmentOf (values : List (Int × Value)) : Assignment :=
  values.map fun entry => (.int entry.1, entry.2)

/-- The bit that a value sets. -/
def bitOf (value : Value) : UInt8 :=
  if value.isTruthy then 1 else 0

/-- Writing values into a state changes just the nodes of the variables that are listed, and each of
    them as the last value for it says. -/
theorem foldlM_assign (hascending : graph.vars.Pairwise (· < ·)) (values : List (Int × Value))
    (hvars : ∀ entry ∈ values, entry.1 ∈ graph.vars) (state : State)
    (hsize : state.size = graph.size) :
    ∃ written, (assignmentOf values).foldlM graph.assign state = .ok written ∧
      written.size = graph.size ∧
      ∀ v ∈ graph.vars, written.bit (graph.vars.idxOf v) =
        ((values.reverse.lookup v).map bitOf).getD (state.bit (graph.vars.idxOf v)) := by
  induction values generalizing state with
  | nil => exact ⟨state, rfl, hsize, by simp⟩
  | cons entry rest ih =>
    obtain ⟨u, value⟩ := entry
    have hu : u ∈ graph.vars := hvars _ List.mem_cons_self
    let written : State := state.set! (graph.vars.idxOf u) (bitOf value)
    have hassign : graph.assign state (.int u, value) = .ok written := by
      simp only [assign, nodeOf_of_mem hascending hu, bind, Except.bind, pure, Except.pure]
      rfl
    obtain ⟨final, hfold, hfinal, hbits⟩ :=
      ih (fun e he => hvars e (List.mem_cons_of_mem _ he)) written (by simp [written, hsize])
    refine ⟨final, ?_, hfinal, fun v hv => ?_⟩
    · simp only [assignmentOf, List.map_cons, List.foldlM_cons, hassign]
      exact hfold
    · rw [hbits v hv, List.reverse_cons, List.lookup_append]
      cases rest.reverse.lookup v with
      -- A later value for the same variable is written over this one.
      | some later => rfl
      | none =>
        by_cases hvu : v = u
        · subst hvu
          have hlt : graph.vars.idxOf v < state.size := by
            rw [hsize]
            exact List.idxOf_lt_length_of_mem hv
          simp [written, State.bit, hlt]
        · have hne : graph.vars.idxOf u ≠ graph.vars.idxOf v :=
            fun h => hvu ((List.idxOf_inj hu).mp h).symm
          have hbeq : (v == u) = false := beq_eq_false_iff_ne.mpr hvu
          simp [written, State.bit, hne, List.lookup_cons, hbeq]

/-- An assignment of zeros and ones, from a choice for each variable. -/
def choose (x : Int → Bool) (ids : List Int) : Assignment :=
  ids.map fun v => (.int v, .int (if x v then 1 else 0))

/-- An assignment that lists all variables of a graph, and no others, gives the state in which
    the bit of each variable is the one that was chosen. -/
theorem toState_of_values (hascending : graph.vars.Pairwise (· < ·)) (x : Int → Bool)
    {ids : List Int} (hids : ∀ v, v ∈ ids ↔ v ∈ graph.vars) :
    ∃ state, graph.toState (choose x ids) = .ok state ∧ state.size = graph.size ∧
      ∀ v ∈ graph.vars, state.bit (graph.vars.idxOf v) = if x v then 1 else 0 := by
  let value (v : Int) : Value := .int (if x v then 1 else 0)
  have hchosen : choose x ids = assignmentOf (ids.map fun v => (v, value v)) := by
    simp [choose, assignmentOf, value]
  obtain ⟨state, hfold, hsize, hbits⟩ := foldlM_assign hascending (ids.map fun v => (v, value v))
    (by simpa using fun v hv => (hids v).mp hv) (Array.replicate graph.size 0) (by simp)
  refine ⟨state, by rw [hchosen]; exact hfold, hsize, fun v hv => ?_⟩
  have hmem : v ∈ ids.reverse := List.mem_reverse.mpr ((hids v).mpr hv)
  rw [hbits v hv, ← List.map_reverse, List.lookup_graph value hmem]
  cases hx : x v <;> simp [value, hx, bitOf, Value.isTruthy]

/-! ## Assignments of some variables -/

/-- A number that equals an integer lies between the same integers. -/
theorem lt_of_eq_int {u v : Int} {a : Number} (heq : (Number.int v).eq a = true) :
    (Number.int u).lt a = (Number.int u).lt (.int v) := by
  cases a with
  | int w =>
    simp only [Number.eq, decide_eq_true_eq] at heq
    rw [heq]
  | float x =>
    simp only [Number.eq, Decimal.intEqFloat] at heq
    simp only [Number.lt, Decimal.intLtFloat]
    cases hexact : Decimal.dyadic? x with
    | none => simp [hexact] at heq
    | some d =>
      simp only [hexact, decide_eq_true_eq] at heq
      have hpositive : 0 < (d.denominator : Int) := by
        exact_mod_cast Nat.pow_pos (by decide : 0 < 2)
      simp only [← heq, Int.mul_lt_mul_right hpositive]

/-- A value that equals an integer is a number. -/
theorem number?_of_eq_int {v : Int} {value : Value} (heq : (Value.int v).eq value = true) :
    ∃ a, value.number? = some a ∧ (Number.int v).eq a = true := by
  cases value with
  | bool b => exact ⟨_, rfl, by simpa [Value.eq, Value.number?] using heq⟩
  | int i => exact ⟨_, rfl, by simpa [Value.eq, Value.number?] using heq⟩
  | float x => exact ⟨_, rfl, by simpa [Value.eq, Value.number?] using heq⟩
  | _ => simp [Value.eq, Value.number?] at heq

/-- A value that equals a variable finds its node. -/
theorem nodeOf_of_eq (hascending : graph.vars.Pairwise (· < ·)) {v : Int} (hv : v ∈ graph.vars)
    {sought : Value} (heq : (Value.int v).eq sought = true) :
    graph.nodeOf sought = .ok (graph.vars.idxOf v) := by
  obtain ⟨a, hsought, ha⟩ := number?_of_eq_int heq
  have hrank : rank a graph.vars = graph.vars.idxOf v := by
    rw [← rank_of_mem hascending hv]
    simp only [rank, lt_of_eq_int ha]
  have hlt := List.idxOf_lt_length_of_mem hv
  simp [nodeOf, hsought, hrank, List.getElem?_eq_getElem hlt, ha]

/-- Writing a bit for a variable is possible, and keeps a state binary. -/
theorem exists_assign (hascending : graph.vars.Pairwise (· < ·)) {state : State}
    (hbinary : State.Binary graph.size state) {entry : Value × Value} {v : Int}
    (hv : v ∈ graph.vars) (heq : (Value.int v).eq entry.1 = true) :
    ∃ written, graph.assign state entry = .ok written ∧ State.Binary graph.size written := by
  refine ⟨state.set! (graph.vars.idxOf v) (if entry.2.isTruthy then 1 else 0), ?_, ?_⟩
  · simp [assign, nodeOf_of_eq hascending hv heq, bind, Except.bind, pure, Except.pure]
  · exact hbinary.set (by split <;> simp)

theorem size_of_assign {state written : State} {entry : Value × Value}
    (hassign : graph.assign state entry = .ok written) : written.size = state.size := by
  simp only [assign, bind, Except.bind, pure, Except.pure] at hassign
  split at hassign
  · cases hassign
  · cases hassign
    simp

/-- Every assignment that gives a state gives one with a bit for each node. -/
theorem size_of_toState {assignment : Assignment} {state : State}
    (hstate : graph.toState assignment = .ok state) : state.size = graph.size := by
  have hfold : ∀ start, assignment.foldlM graph.assign start = .ok state →
      state.size = start.size := by
    clear hstate
    induction assignment with
    | nil =>
      rintro start ⟨⟩
      rfl
    | cons entry rest ih =>
      intro start hstart
      rw [List.foldlM_cons] at hstart
      cases hassign : graph.assign start entry with
      | error fault =>
        rw [hassign] at hstart
        cases hstart
      | ok written =>
        rw [hassign] at hstart
        rw [ih written hstart, size_of_assign hassign]
  rw [hfold _ hstate, Array.size_replicate]

/-- An assignment whose entries are all for variables of the graph gives a state. -/
theorem exists_toState (hascending : graph.vars.Pairwise (· < ·)) {assignment : Assignment}
    (hvars : ∀ entry ∈ assignment, ∃ v ∈ graph.vars, (Value.int v).eq entry.1 = true) :
    ∃ state, graph.toState assignment = .ok state ∧ State.Binary graph.size state := by
  have hfold : ∀ state, State.Binary graph.size state →
      ∃ final, assignment.foldlM graph.assign state = .ok final ∧
        State.Binary graph.size final := by
    induction assignment with
    | nil => exact fun state hbinary => ⟨state, rfl, hbinary⟩
    | cons entry rest ih =>
      intro state hbinary
      obtain ⟨v, hv, heq⟩ := hvars entry List.mem_cons_self
      obtain ⟨written, hassign, hwritten⟩ := exists_assign hascending hbinary hv heq
      obtain ⟨final, hrest, hfinal⟩ :=
        ih (fun e he => hvars e (List.mem_cons_of_mem _ he)) written hwritten
      refine ⟨final, ?_, hfinal⟩
      rw [List.foldlM_cons, hassign]
      exact hrest
  exact hfold _ (State.binary_zeros graph.size)

/-- Node by node, the assignment of a state gives each variable the bit of its node. -/
theorem toAssignment_eq_map (hascending : graph.vars.Pairwise (· < ·)) {state : State}
    (hsize : state.size = graph.size) :
    graph.toAssignment state.toList =
      graph.vars.map fun v => (v, state.bit (graph.vars.idxOf v)) := by
  have hnodup : graph.vars.Nodup := hascending.imp fun h => h.ne
  have hlength : graph.vars.length = state.size := hsize.symm
  apply List.ext_getElem
  · simp [toAssignment, hlength]
  · intro i hi _
    have hlt : i < graph.vars.length := by
      simp only [toAssignment, List.length_zip] at hi
      omega
    have hstate : i < state.size := hlength ▸ hlt
    simp [toAssignment, hnodup.idxOf_getElem, State.bit, hstate]

/-- The values of the nodes, looked up by variable, are the state they come from. -/
theorem toState_toAssignment (hascending : graph.vars.Pairwise (· < ·)) {state : State}
    (hbinary : State.Binary graph.size state) :
    graph.toState ((graph.toAssignment state.toList).map fun entry =>
      (.int entry.1, .int entry.2.toNat)) = .ok state := by
  have hnodup : graph.vars.Nodup := hascending.imp fun h => h.ne
  -- Read off, the values are the choice of the bits that are one.
  have hchosen : ((graph.toAssignment state.toList).map fun entry =>
      (Value.int entry.1, Value.int entry.2.toNat)) =
      choose (fun v => state.bit (graph.vars.idxOf v) == 1) graph.vars := by
    rw [toAssignment_eq_map hascending hbinary.size_eq, choose, List.map_map]
    refine List.map_congr_left fun v _ => ?_
    rcases hbinary.zero_or_one (graph.vars.idxOf v) with hzero | hone
    · simp [hzero]
    · simp [hone]
  have hall : ∀ v, v ∈ graph.vars ↔ v ∈ graph.vars := fun _ => Iff.rfl
  obtain ⟨found, hfound, hsize, hbits⟩ :=
    toState_of_values hascending (fun v => state.bit (graph.vars.idxOf v) == 1) hall
  rw [hchosen, hfound]
  congr 1
  apply State.ext_bit (hsize.trans hbinary.size_eq.symm)
  intro i hi
  have hlt : i < graph.vars.length := by
    rw [hsize] at hi
    exact hi
  have hsame := hbits graph.vars[i] (List.getElem_mem hlt)
  rw [hnodup.idxOf_getElem] at hsame
  rw [hsame]
  rcases hbinary.zero_or_one i with hzero | hone
  · simp [hzero]
  · simp [hone]

end Graph

end Annealing
