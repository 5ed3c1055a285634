import Annealing.Proofs.Anneal.Reports

/-! # How an anneal fails

* `exists_of_fault_sweep` — a sweep fails at a change of energy that is not decided on.
* `coolingStep_eq_error` — all that can make a cooling step fail.
* `anneal_of_coolingStep_error` — the first cooling step fails.
* `exists_walk_of_failed` — an anneal fails where a temperature is not compared, or in a cooling
  step.
* `Schedule.exists_countFrom` — where temperatures are compared and cooled, counting goes through.
-/

namespace Annealing

variable {ω τ σ ρ ε : Type}

/-- A count fails nowhere if all temperatures that it gets to can be compared and cooled. -/
theorem Schedule.exists_countFrom {schedule : Schedule τ ε} {P : τ → Prop}
    (hhot : ∀ temperature, P temperature → ∃ hot, schedule.hot temperature = .ok hot)
    (hcool : ∀ temperature, P temperature → ∃ cooler, schedule.cool temperature = .ok cooler ∧
      P cooler)
    (limit : Nat) {temperature : τ} (htemperature : P temperature) (steps : Nat) :
    ∃ steps?, schedule.countFrom limit temperature steps = .ok steps? := by
  induction limit generalizing temperature steps with
  | zero => exact ⟨none, rfl⟩
  | succ limit ih =>
    obtain ⟨hot, hhot⟩ := hhot temperature htemperature
    obtain ⟨cooler, hcool, hcooler⟩ := hcool temperature htemperature
    simp only [countFrom, hhot, hcool]
    cases hot with
    | false => exact ⟨some steps, rfl⟩
    | true => exact ih hcooler (steps + 1)

section Weights

variable [OfNat ω 0] [Add ω] [Neg ω] {graph : Graph ω}

/-! ## Sweeps -/

namespace Graph

variable {accept : ρ → ω → Except ε Bool} {fault : ε}

theorem exists_of_fault_sweep {state : State} {delta : ω} {used : Nat} {draws : List (Nat × ρ)}
    (hfault : (graph.sweep accept state delta used draws).fault? = some fault) :
    ∃ r change, accept r change = .error fault := by
  induction draws generalizing state delta used with
  | nil => cases hfault
  | cons draw draws ih =>
    obtain ⟨i, r⟩ := draw
    cases haccept : accept r (graph.flipDelta state i) with
    | error other =>
      simp only [sweep, trial, haccept, Except.map, Option.some.injEq] at hfault
      exact ⟨r, _, hfault ▸ haccept⟩
    | ok accepted =>
      simp only [sweep, trial, haccept, Except.map] at hfault
      exact ih hfault

/-- A state with nodes is swept, and only there the number of trials has to be one. -/
theorem fault_sweepDrawn {source : Source σ ρ} {state : State} {trials : Except ε Nat} {stream : σ}
    (hfault : (graph.sweepDrawn source accept state trials stream).1.fault? = some fault) :
    0 < state.size ∧ (trials = .error fault ∨ ∃ r change, accept r change = .error fault) := by
  unfold sweepDrawn at hfault
  split at hfault
  · cases hfault
  · rename_i hempty
    refine ⟨Array.size_pos_iff.mpr (by simpa using hempty), ?_⟩
    cases trials with
    | error other =>
      cases hfault
      exact .inl rfl
    | ok trials =>
      simp only at hfault
      split at hfault <;> exact .inr (exists_of_fault_sweep hfault)

end Graph

/-! ## Cooling steps and runs -/

namespace Plan

variable {plan : Plan τ ω ρ ε} {source : Source σ ρ} {walk : Walk ω τ σ} {fault : ε}

theorem coolingStep_eq_error {stream : σ}
    (hstep : plan.coolingStep source graph walk = (.error fault, stream)) :
    (0 < walk.state.size ∧ (plan.trials = .error fault ∨
        ∃ r change, plan.accept walk.temperature r change = .error fault)) ∨
      plan.cool walk.temperature = .error fault ∨
      ∃ cooler, plan.cool walk.temperature = .ok cooler ∧ plan.announce cooler = .error fault := by
  unfold coolingStep at hstep
  cases hfault : (graph.sweepDrawn source (plan.accept walk.temperature) walk.state plan.trials
      walk.stream).1.fault? with
  | some other =>
    simp only [hfault, Prod.mk.injEq, Except.error.injEq] at hstep
    obtain ⟨rfl, -⟩ := hstep
    exact .inl (Graph.fault_sweepDrawn hfault)
  | none =>
    cases hcool : plan.cool walk.temperature with
    | error other =>
      simp only [hfault, hcool, Prod.mk.injEq, Except.error.injEq] at hstep
      exact .inr (.inl (congrArg Except.error hstep.1))
    | ok cooler =>
      cases hannounce : plan.announce cooler with
      | error other =>
        simp only [hfault, hcool, hannounce, Prod.mk.injEq, Except.error.injEq] at hstep
        exact .inr (.inr ⟨cooler, rfl, hannounce.trans (congrArg Except.error hstep.1)⟩)
      | ok done => simp [hfault, hcool, hannounce] at hstep

/-- A cooling step from a temperature that cannot be cooled fails, if only after its sweep. -/
theorem coolingStep_of_cool_error (source : Source σ ρ) (graph : Graph ω)
    (hcool : plan.cool walk.temperature = .error fault) :
    ∃ other stream, plan.coolingStep source graph walk = (.error other, stream) := by
  cases hstep : plan.coolingStep source graph walk with
  | mk result stream =>
    cases result with
    | error other => exact ⟨other, stream, rfl⟩
    | ok next =>
      obtain ⟨-, hcooled, -⟩ := coolingStep_eq_ok hstep
      rw [hcool] at hcooled
      cases hcooled

/-- A state with nodes cannot be swept without a number of trials. -/
theorem coolingStep_of_trials_error (source : Source σ ρ) (graph : Graph ω)
    (hstate : 0 < walk.state.size) (htrials : plan.trials = .error fault) :
    ∃ stream, plan.coolingStep source graph walk = (.error fault, stream) := by
  have hempty : walk.state.isEmpty = false := by
    simpa using Array.size_pos_iff.mp hstate
  simp only [coolingStep, Graph.sweepDrawn, hempty, htrials]
  exact ⟨_, rfl⟩

/-- An anneal whose first cooling step fails reports nothing. -/
theorem anneal_of_coolingStep_error {source : Source σ ρ} {graph : Graph ω} {start after : σ}
    (hhot : plan.hot plan.initial = .ok true)
    (hstep : plan.coolingStep source graph (plan.start source graph start) = (.error fault, after))
    (limit : Nat) :
    plan.anneal source graph [] (limit + 1) start = ⟨[], .failed fault, after⟩ := by
  have hinitial : plan.hot (plan.start source graph start).temperature = .ok true := hhot
  rw [Plan.anneal, runFrom_succ, hinitial, hstep]
  rfl

/-- An anneal that fails got to where it fails by cooling steps, and what they keep holds there. -/
theorem exists_walk_of_failed {P : Walk ω τ σ → Prop} {stops : List Signal} {limit : Nat}
    (hkeep : ∀ walk next stream, P walk → plan.coolingStep source graph walk = (.ok next, stream) →
      P next)
    (hwalk : P walk)
    (hfailed : (plan.runFrom source graph stops limit walk []).ending = .failed fault) :
    ∃ reached, P reached ∧ (plan.hot reached.temperature = .error fault ∨
      plan.hot reached.temperature = .ok true ∧
        ∃ stream, plan.coolingStep source graph reached = (.error fault, stream)) := by
  induction limit generalizing walk with
  | zero => cases hfailed
  | succ limit ih =>
    rw [runFrom_succ] at hfailed
    split at hfailed
    · rename_i other hhot
      cases hfailed
      exact ⟨walk, hwalk, .inl hhot⟩
    · cases hfailed
    · rename_i hhot
      split at hfailed
      · cases hfailed
      · split at hfailed
        · rename_i other stream hstep
          cases hfailed
          exact ⟨walk, hwalk, .inr ⟨hhot, stream, hstep⟩⟩
        · rename_i next stream hstep
          exact ih (hkeep walk next stream hwalk hstep) hfailed

end Plan

end Weights

end Annealing
