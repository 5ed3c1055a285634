import Annealing.Anneal.Run
import Annealing.Proofs.Graph.Energy

/-! # What a cooling step keeps

A state that is drawn is binary, and trials at nodes of the graph keep it so, whatever the weights
and the rule of acceptance.  Where weights are added exactly, the changes of energy that trials
report add up to the change of the energy itself.

* `bits_binary`, `draws_lt` — what a source draws.
* `trial_eq_ok_iff`, `trial_eq_ok` — all that a trial can do.
* `sweep_binary`, `sweep_energy` — what a list of trials does to the state and to the energy.
* `coolingStep_eq_ok`, `coolingStep_binary`, `coolingStep_energy` — the same for a cooling step.
-/

namespace Annealing

open State (Binary)

variable {ω τ σ ρ ε : Type}

/-! ## Draws -/

namespace Source

theorem bitsAfter_binary (source : Source σ ρ) (n : Nat) {state : State} {k : Nat}
    (hbinary : Binary k state) (stream : σ) :
    Binary (k + n) (source.bitsAfter n state stream).1 := by
  induction n generalizing k state stream with
  | zero => exact hbinary
  | succ n ih =>
    have hpush : Binary (k + 1) (state.push (if (source.coin stream).1 then 1 else 0)) := by
      refine ⟨by simp [hbinary.size_eq], fun i => ?_⟩
      have hi := hbinary.zero_or_one i
      simp only [State.bit, Array.getD_eq_getD_getElem?] at hi ⊢
      rw [Array.getElem?_push]
      split
      · cases (source.coin stream).1 <;> simp
      · exact hi
    have hrest := ih hpush (source.coin stream).2
    rwa [Nat.add_right_comm, Nat.add_assoc] at hrest

/-- A state that is drawn has one byte per node, zero or one. -/
theorem bits_binary (source : Source σ ρ) (n : Nat) (stream : σ) :
    Binary n (source.bits n stream).1 := by
  have hempty : Binary 0 #[] := ⟨rfl, fun i => .inl rfl⟩
  simpa [bits] using source.bitsAfter_binary n hempty stream

theorem drawsAfter_lt (source : Source σ ρ) {n : Nat} (hn : 0 < n) (trials : Nat)
    (drawn : List (Nat × ρ)) (hdrawn : ∀ draw ∈ drawn, draw.1 < n) (stream : σ) :
    ∀ draw ∈ (source.drawsAfter n trials drawn stream).1, draw.1 < n := by
  induction trials generalizing drawn stream with
  | zero => simpa [drawsAfter] using hdrawn
  | succ trials ih =>
    apply ih
    intro draw hmem
    rcases List.mem_cons.mp hmem with rfl | hmem
    · exact source.place_lt n stream hn
    · exact hdrawn draw hmem

/-- The nodes that are drawn are nodes of the graph. -/
theorem draws_lt (source : Source σ ρ) {n : Nat} (hn : 0 < n) (trials : Nat) (stream : σ) :
    ∀ draw ∈ (source.draws n trials stream).1, draw.1 < n :=
  source.drawsAfter_lt hn trials [] (by simp) stream

end Source

namespace Graph

/-! ## Trials -/

section Weights

variable [OfNat ω 0] [Add ω] [Neg ω] {graph : Graph ω}

/-- A trial is told by its decision. -/
theorem trial_eq_ok_iff {accept : ω → Except ε Bool} {state next : State} {i : Nat} {change : ω} :
    graph.trial accept state i = .ok (next, change) ↔
      ∃ accepted, accept (graph.flipDelta state i) = .ok accepted ∧
        next = state.flipIf accepted i ∧
        change = if accepted then graph.flipDelta state i else 0 := by
  unfold trial State.flipIf
  cases haccept : accept (graph.flipDelta state i) with
  | error fault => simp [haccept, Except.map]
  | ok accepted =>
    simp only [haccept, Except.map, Except.ok.injEq, exists_eq_left']
    cases accepted <;> simp only [Bool.false_eq_true, if_false, if_true, Prod.mk.injEq] <;>
      exact and_congr eq_comm eq_comm

/-- A trial that is decided flips the bit and reports its change of energy, or does nothing and
    reports none. -/
theorem trial_eq_ok {accept : ω → Except ε Bool} {state next : State} {i : Nat} {change : ω}
    (htrial : graph.trial accept state i = .ok (next, change)) :
    (accept (graph.flipDelta state i) = .ok true ∧ next = state.flip i ∧
        change = graph.flipDelta state i) ∨
      (accept (graph.flipDelta state i) = .ok false ∧ next = state ∧ change = 0) := by
  obtain ⟨accepted, haccept, rfl, rfl⟩ := trial_eq_ok_iff.mp htrial
  cases accepted with
  | true => exact .inl ⟨haccept, rfl, rfl⟩
  | false => exact .inr ⟨haccept, rfl, rfl⟩

theorem size_of_trial {accept : ω → Except ε Bool} {state next : State} {i : Nat} {change : ω}
    (htrial : graph.trial accept state i = .ok (next, change)) : next.size = state.size := by
  obtain ⟨flips, -, rfl, -⟩ := trial_eq_ok_iff.mp htrial
  exact State.size_flipIf flips state i

theorem trial_binary {n : Nat} {accept : ω → Except ε Bool} {state next : State} {i : Nat}
    {change : ω} (hbinary : Binary n state) (hi : i < n)
    (htrial : graph.trial accept state i = .ok (next, change)) : Binary n next := by
  rcases trial_eq_ok htrial with ⟨-, rfl, -⟩ | ⟨-, rfl, -⟩
  · exact hbinary.flip hi
  · exact hbinary

theorem sweep_binary {n : Nat} (accept : ρ → ω → Except ε Bool) {state : State}
    (hbinary : Binary n state) (delta : ω) (used : Nat) {draws : List (Nat × ρ)}
    (hdraws : ∀ draw ∈ draws, draw.1 < n) :
    Binary n (graph.sweep accept state delta used draws).state := by
  induction draws generalizing state delta used with
  | nil => exact hbinary
  | cons draw draws ih =>
    obtain ⟨i, r⟩ := draw
    simp only [sweep]
    cases htrial : graph.trial (accept r) state i with
    | error fault => exact hbinary
    | ok result =>
      obtain ⟨next, change⟩ := result
      exact ih (trial_binary hbinary (hdraws _ List.mem_cons_self) htrial) _ _
        fun draw hmem => hdraws draw (List.mem_cons_of_mem _ hmem)

/-- A sweep over drawn nodes keeps the state binary. -/
theorem sweepDrawn_binary (source : Source σ ρ) (accept : ρ → ω → Except ε Bool) {n : Nat}
    {state : State} (hbinary : Binary n state) (trials : Except ε Nat) (stream : σ) :
    Binary n (graph.sweepDrawn source accept state trials stream).1.state := by
  unfold sweepDrawn
  split
  · exact hbinary
  · rename_i hempty
    -- Nodes are drawn only where there are any.
    obtain rfl := hbinary.size_eq
    have hn : 0 < state.size := Array.size_pos_iff.mpr (by simpa using hempty)
    cases trials with
    | error fault => exact hbinary
    | ok trials =>
      have hdraws := source.draws_lt hn trials stream
      simp only
      split <;> exact sweep_binary accept hbinary 0 0 hdraws

end Weights

/-! ## Energies -/

section Energies

variable [AddCommGroup ω] {graph : Graph ω}

theorem trial_energy (hwf : graph.WellFormed) {accept : ω → Except ε Bool} {state next : State}
    {i : Nat} {change : ω} (hbinary : Binary graph.size state) (hi : i < graph.size)
    (htrial : graph.trial accept state i = .ok (next, change)) :
    graph.energy next = graph.energy state + change := by
  rcases trial_eq_ok htrial with ⟨-, rfl, rfl⟩ | ⟨-, rfl, rfl⟩
  · exact energy_flip hwf hbinary hi
  · exact (add_zero _).symm

/-- The changes that a sweep adds up are the change of the energy of the state. -/
theorem sweep_energy (hwf : graph.WellFormed) (accept : ρ → ω → Except ε Bool) {state : State}
    (hbinary : Binary graph.size state) (delta : ω) (used : Nat) {draws : List (Nat × ρ)}
    (hdraws : ∀ draw ∈ draws, draw.1 < graph.size) :
    graph.energy (graph.sweep accept state delta used draws).state + delta =
      graph.energy state + (graph.sweep accept state delta used draws).delta := by
  induction draws generalizing state delta used with
  | nil => rfl
  | cons draw draws ih =>
    obtain ⟨i, r⟩ := draw
    have hi : i < graph.size := hdraws (i, r) List.mem_cons_self
    simp only [sweep]
    cases htrial : graph.trial (accept r) state i with
    | error fault => rfl
    | ok result =>
      obtain ⟨next, change⟩ := result
      -- The trial puts its change on both sides: into the state, and into the changes so far.
      have hrest := ih (trial_binary hbinary hi htrial) (delta + change) (used + 1)
        fun draw hmem => hdraws draw (List.mem_cons_of_mem _ hmem)
      rw [trial_energy hwf hbinary hi htrial] at hrest
      refine add_right_cancel (b := change) ?_
      rw [add_assoc, hrest]
      abel

theorem sweepDrawn_energy (hwf : graph.WellFormed) (source : Source σ ρ)
    (accept : ρ → ω → Except ε Bool) {state : State} (hbinary : Binary graph.size state)
    (trials : Except ε Nat) (stream : σ) :
    let swept := (graph.sweepDrawn source accept state trials stream).1
    graph.energy swept.state = graph.energy state + swept.delta := by
  unfold sweepDrawn
  split
  · exact (add_zero _).symm
  · rename_i hempty
    have hn : 0 < graph.size := by
      rw [← hbinary.size_eq]
      exact Array.size_pos_iff.mpr (by simpa using hempty)
    cases trials with
    | error fault => exact (add_zero _).symm
    | ok trials =>
      have hswept := sweep_energy hwf accept hbinary 0 0 (source.draws_lt hn trials stream)
      rw [add_zero] at hswept
      simp only [hbinary.size_eq]
      split <;> exact hswept

end Energies

end Graph

/-! ## Cooling steps -/

namespace Plan

variable {plan : Plan τ ω ρ ε} {source : Source σ ρ} {graph : Graph ω}

/-- A cooling step that succeeds has swept the state, added up the changes, cooled and
    announced. -/
theorem coolingStep_eq_ok [OfNat ω 0] [Add ω] [Neg ω] {walk next : Walk ω τ σ} {stream : σ}
    (hstep : plan.coolingStep source graph walk = (.ok next, stream)) :
    let swept := graph.sweepDrawn source (plan.accept walk.temperature) walk.state plan.trials
      walk.stream
    swept.1.fault? = none ∧ plan.cool walk.temperature = .ok next.temperature ∧
      plan.announce next.temperature = .ok () ∧ stream = swept.2 ∧
      next = ⟨swept.1.state, next.temperature, walk.energy + swept.1.delta, walk.step + 1,
        swept.2⟩ := by
  unfold coolingStep at hstep
  generalize graph.sweepDrawn source (plan.accept walk.temperature) walk.state plan.trials
    walk.stream = swept at hstep ⊢
  obtain ⟨swept, after⟩ := swept
  cases hfault : swept.fault? with
  | some fault => simp [hfault] at hstep
  | none =>
    cases hcool : plan.cool walk.temperature with
    | error fault => simp [hfault, hcool] at hstep
    | ok cooler =>
      cases hannounce : plan.announce cooler with
      | error fault => simp [hfault, hcool, hannounce] at hstep
      | ok done =>
        simp only [hfault, hcool, hannounce, Prod.mk.injEq, Except.ok.injEq] at hstep
        obtain ⟨rfl, rfl⟩ := hstep
        exact ⟨hfault, rfl, hannounce, rfl, rfl⟩

theorem coolingStep_binary [OfNat ω 0] [Add ω] [Neg ω] {walk next : Walk ω τ σ} {stream : σ}
    {n : Nat} (hbinary : Binary n walk.state)
    (hstep : plan.coolingStep source graph walk = (.ok next, stream)) : Binary n next.state := by
  obtain ⟨-, -, -, -, hnext⟩ := coolingStep_eq_ok hstep
  rw [hnext]
  exact Graph.sweepDrawn_binary source _ hbinary _ _

/-- A cooling step keeps the energy up to date. -/
theorem coolingStep_energy [AddCommGroup ω] (hwf : graph.WellFormed) {walk next : Walk ω τ σ}
    {stream : σ} (hbinary : Binary graph.size walk.state)
    (henergy : walk.energy = graph.energy walk.state)
    (hstep : plan.coolingStep source graph walk = (.ok next, stream)) :
    next.energy = graph.energy next.state := by
  obtain ⟨-, -, -, -, hnext⟩ := coolingStep_eq_ok hstep
  rw [hnext, henergy]
  exact (Graph.sweepDrawn_energy hwf source _ hbinary _ _).symm

end Plan

end Annealing
