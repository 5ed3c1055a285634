import Annealing.Proofs.Anneal.Acceptance

/-! # Trials that commute

A trial looks at its own node and at the neighbours of that node, and writes to its own node alone.
So two trials at different nodes without a coupling between them do not see each other, and come to
the same in either order.  Nothing is asked of the weights or of the rule of acceptance.

* `Graph.Apart` — two different nodes without a coupling between them.
* `Apart.flipDelta_flipIf` — what is done at the one does not change what a flip at the other costs.
* `trial_swap` — two trials that are decided are decided alike in the other order.
* `trialAt_comm` — the same for positions of a state, of any graph that is built.
-/

namespace Annealing

variable {ω ρ ε : Type}

/-! ## Trials at two nodes -/

namespace Graph

variable [OfNat ω 0]

/-- Two different nodes without a coupling between them. -/
structure Apart (graph : Graph ω) (i j : Nat) : Prop where
  ne : i ≠ j
  uncoupled : ∀ w, (j, w) ∉ graph.neighbours i

namespace Apart

variable {graph : Graph ω} {i j : Nat} {state : State}

/-- Couplings stand at both of their ends. -/
theorem symm (hwf : graph.WellFormed) (hapart : graph.Apart i j) : graph.Apart j i where
  ne := hapart.ne.symm
  uncoupled w hmem := hapart.uncoupled w ((hwf.symmetric i j w).mpr hmem)

variable [Add ω]

theorem localField_flip (hapart : graph.Apart i j) :
    graph.localField (state.flip j) i = graph.localField state i := by
  unfold localField
  apply List.foldl_ext
  intro field neighbour hmem
  have hne : neighbour.1 ≠ j := fun heq => hapart.uncoupled neighbour.2 (heq ▸ hmem)
  rw [State.bit_flip_of_ne hne]

variable [Neg ω]

/-- What is done at the one node does not change what a flip at the other would cost. -/
theorem flipDelta_flipIf (hapart : graph.Apart i j) (flips : Bool) :
    graph.flipDelta (state.flipIf flips j) i = graph.flipDelta state i := by
  cases flips with
  | false => rfl
  | true =>
    have hbit : (state.flip j).bit i = state.bit i := State.bit_flip_of_ne hapart.ne
    rw [State.flipIf, if_pos rfl, flipDelta, hapart.localField_flip, hbit, flipDelta]

end Apart

variable [Add ω] [Neg ω] {graph : Graph ω} {i j : Nat} {state : State}

/-- Two trials that are decided are decided alike in the other order, and come to the same. -/
theorem trial_swap (hapart : graph.Apart i j) (hapart' : graph.Apart j i)
    {accept accept' : ω → Except ε Bool} {mid final : State} {change change' : ω}
    (hfirst : graph.trial accept state i = .ok (mid, change))
    (hsecond : graph.trial accept' mid j = .ok (final, change')) :
    ∃ mid', graph.trial accept' state j = .ok (mid', change') ∧
      graph.trial accept mid' i = .ok (final, change) := by
  obtain ⟨flips, haccept, rfl, rfl⟩ := trial_eq_ok_iff.mp hfirst
  obtain ⟨flips', haccept', rfl, rfl⟩ := trial_eq_ok_iff.mp hsecond
  rw [hapart'.flipDelta_flipIf] at haccept' ⊢
  refine ⟨state.flipIf flips' j, trial_eq_ok_iff.mpr ⟨flips', haccept', rfl, rfl⟩,
    trial_eq_ok_iff.mpr ⟨flips, ?_, ?_, ?_⟩⟩
  · rwa [hapart.flipDelta_flipIf]
  · exact State.flipIf_comm flips flips' state i j
  · rw [hapart.flipDelta_flipIf]

/-! ## Trials at two positions -/

section Positions

variable {position position' : Int}

theorem trialAt_swap (hsize : state.size = graph.size)
    (hapart : graph.Apart (placeAt graph.size position) (placeAt graph.size position'))
    (hapart' : graph.Apart (placeAt graph.size position') (placeAt graph.size position))
    {accept accept' : ω → Except ε Bool} {mid final : State} {change change' : ω}
    (hfirst : graph.trialAt accept state position = .ok (mid, change))
    (hsecond : graph.trialAt accept' mid position' = .ok (final, change')) :
    ∃ mid', graph.trialAt accept' state position' = .ok (mid', change') ∧
      graph.trialAt accept mid' position = .ok (final, change) := by
  rw [trialAt_eq_trial hsize] at hfirst
  rw [trialAt_eq_trial ((size_of_trial hfirst).trans hsize)] at hsecond
  obtain ⟨mid', hfirst', hsecond'⟩ := trial_swap hapart hapart' hfirst hsecond
  refine ⟨mid', by rwa [trialAt_eq_trial hsize], ?_⟩
  rwa [trialAt_eq_trial ((size_of_trial hfirst').trans hsize)]

variable {weigh : Value → Value → Except Fault ω} {coefficients : Coefficients}

/-- Two positions of a state of the graph whose nodes are different and not coupled.  Trials at both
    that are decided come to the same state, and report the same two changes, in either order; and
    by the rule of acceptance they are decided, at any two temperatures and for any two drawn
    numbers. -/
theorem trialAt_comm [LE ω] [DecidableLE ω] [Div ω] [LT ρ] [DecidableLT ρ]
    (hbuild : Graph.build weigh coefficients = .ok graph) (hsize : state.size = graph.size)
    (hne : placeAt graph.size position ≠ placeAt graph.size position')
    (huncoupled : ∀ w,
      (placeAt graph.size position', w) ∉ graph.neighbours (placeAt graph.size position)) :
    (∀ (accept accept' : ω → Except ε Bool) (final : State) (change change' : ω),
      (∃ mid, graph.trialAt accept state position = .ok (mid, change) ∧
          graph.trialAt accept' mid position' = .ok (final, change')) ↔
        ∃ mid, graph.trialAt accept' state position' = .ok (mid, change') ∧
          graph.trialAt accept mid position = .ok (final, change)) ∧
      ∀ (exp : ω → ρ) (temperature temperature' : ω) (r r' : ρ),
        let accept : ω → Except ε Bool := fun delta => .ok (accepts exp temperature r delta)
        let accept' : ω → Except ε Bool := fun delta => .ok (accepts exp temperature' r' delta)
        ∃ mid mid' final change change',
          graph.trialAt accept state position = .ok (mid, change) ∧
            graph.trialAt accept' mid position' = .ok (final, change') ∧
            graph.trialAt accept' state position' = .ok (mid', change') ∧
            graph.trialAt accept mid' position = .ok (final, change) := by
  have hapart : graph.Apart (placeAt graph.size position) (placeAt graph.size position') :=
    ⟨hne, huncoupled⟩
  have hapart' := hapart.symm (wellFormed_of_build hbuild)
  constructor
  · intro accept accept' final change change'
    constructor
    · rintro ⟨mid, hfirst, hsecond⟩
      exact trialAt_swap hsize hapart hapart' hfirst hsecond
    · rintro ⟨mid, hfirst, hsecond⟩
      exact trialAt_swap hsize hapart' hapart hfirst hsecond
  · intro exp temperature temperature' r r' accept accept'
    obtain ⟨⟨mid, change⟩, hfirst⟩ : ∃ result,
        graph.trialAt accept state position = .ok result := ⟨_, rfl⟩
    obtain ⟨⟨final, change'⟩, hsecond⟩ : ∃ result,
        graph.trialAt accept' mid position' = .ok result := ⟨_, rfl⟩
    obtain ⟨mid', hfirst', hsecond'⟩ := trialAt_swap hsize hapart hapart' hfirst hsecond
    exact ⟨mid, mid', final, change, change', hfirst, hsecond, hfirst', hsecond'⟩

/-- Two increases that are accepted by chance, at two nodes without a coupling between them. -/
theorem trialAt_comm_sample :
    let accept (temperature r : ℚ) : ℚ → Except Fault Bool :=
      fun delta => .ok (accepts (fun x : ℚ => 1 + x / 2) temperature r delta)
    Graph.build Coefficients.readExact Coefficients.sample = .ok Graph.sample ∧
      Graph.sample.trialAt (accept 3 (1 / 2)) #[1, 0, 1, 0, 1] 1 =
        .ok (#[1, 1, 1, 0, 1], 9 / 4) ∧
      Graph.sample.trialAt (accept 8 (1 / 4)) #[1, 1, 1, 0, 1] (-2) =
        .ok (#[1, 1, 1, 1, 1], 4) ∧
      ∃ mid, Graph.sample.trialAt (accept 8 (1 / 4)) #[1, 0, 1, 0, 1] (-2) = .ok (mid, 4) ∧
        Graph.sample.trialAt (accept 3 (1 / 2)) mid 1 = .ok (#[1, 1, 1, 1, 1], 9 / 4) := by
  intro accept
  have hfirst : Graph.sample.trialAt (accept 3 (1 / 2)) #[1, 0, 1, 0, 1] 1 =
      .ok (#[1, 1, 1, 0, 1], 9 / 4) :=
    congrArg Except.ok (by decide +kernel)
  have hsecond : Graph.sample.trialAt (accept 8 (1 / 4)) #[1, 1, 1, 0, 1] (-2) =
      .ok (#[1, 1, 1, 1, 1], 4) :=
    congrArg Except.ok (by decide +kernel)
  have huncoupled : ∀ w, (placeAt Graph.sample.size (-2), w) ∉
      Graph.sample.neighbours (placeAt Graph.sample.size 1) := by
    intro w hmem
    have hnode : placeAt Graph.sample.size (-2) ∈
        (Graph.sample.neighbours (placeAt Graph.sample.size 1)).map Prod.fst :=
      List.mem_map_of_mem hmem
    exact absurd hnode (by decide +kernel)
  obtain ⟨hswap, -⟩ := trialAt_comm (ε := Fault) (ρ := ℚ) build_sample
    (show (#[1, 0, 1, 0, 1] : State).size = Graph.sample.size from rfl)
    (show placeAt Graph.sample.size 1 ≠ placeAt Graph.sample.size (-2) by decide) huncoupled
  exact ⟨build_sample, hfirst, hsecond, (hswap _ _ _ _ _).mp ⟨_, hfirst, hsecond⟩⟩

end Positions

end Graph

end Annealing
