import Annealing.Proofs.Anneal.Reports
import Annealing.Proofs.Graph.Images

/-! # Images of anneals

Temperatures and weights of an anneal may both be sent on by functions.  A plan whose parts
commute with them anneals the image of a graph draw by draw as the plan it comes from anneals the
graph itself.

* `sweep_image`, `coolingStep_image` — one sweep and one cooling step.
* `runFrom_of_coolingStep` — two runs whose cooling steps go on side by side.
* `anneal_image` — and so a whole anneal.
-/

namespace Annealing

variable {ω ω' τ τ' σ ρ ε : Type} {f : τ → τ'} {g : ω → ω'}

/-! ## What is sent on -/

def Swept.image (g : ω → ω') (swept : Swept ω ε) : Swept ω' ε :=
  ⟨swept.state, g swept.delta, swept.used, swept.fault?⟩

def Report.image (f : τ → τ') (g : ω → ω') (report : Report ω τ) : Report ω' τ' :=
  ⟨report.state, f report.temperature, g report.energy, report.step, report.finished⟩

def Walk.image (f : τ → τ') (g : ω → ω') (walk : Walk ω τ σ) : Walk ω' τ' σ :=
  ⟨walk.state, f walk.temperature, g walk.energy, walk.step, walk.stream⟩

def Run.image (f : τ → τ') (g : ω → ω') (run : Run ω τ σ ε) : Run ω' τ' σ ε :=
  ⟨run.reports.map (Report.image f g), run.ending, run.stream⟩

@[simp] theorem Walk.report_image (walk : Walk ω τ σ) (finished : Bool) :
    (walk.image f g).report finished = (walk.report finished).image f g :=
  rfl

@[simp] theorem Run.image_after (run : Run ω τ σ ε) (reports : List (Report ω τ)) :
    (run.after reports).image f g = (run.image f g).after (reports.map (Report.image f g)) := by
  simp [Run.image, Run.after]

@[simp] theorem Run.image_id (run : Run ω τ σ ε) : run.image id id = run := by
  have hreport : Report.image (id : τ → τ) (id : ω → ω) = id := rfl
  simp [Run.image, hreport]

/-- The parts of the second plan do with images what those of the first do. -/
structure Plan.Images (f : τ → τ') (g : ω → ω') (plan : Plan τ ω ρ ε) (plan' : Plan τ' ω' ρ ε) :
    Prop where
  initial_eq : plan'.initial = f plan.initial
  hot_eq : ∀ temperature, plan'.hot (f temperature) = plan.hot temperature
  cool_eq : ∀ temperature, plan'.cool (f temperature) = (plan.cool temperature).map f
  trials_eq : plan'.trials = plan.trials
  accept_eq : ∀ temperature r delta,
    plan'.accept (f temperature) r (g delta) = plan.accept temperature r delta
  announce_eq : ∀ temperature, plan'.announce (f temperature) = plan.announce temperature

variable [OfNat ω 0] [Add ω] [Neg ω] [OfNat ω' 0] [Add ω'] [Neg ω']

/-! ## Sweeps -/

namespace Graph

theorem trial_image (hkeeps : KeepsSums g) (graph : Graph ω) {accept : ω → Except ε Bool}
    {accept' : ω' → Except ε Bool} (haccept : ∀ delta, accept' (g delta) = accept delta)
    (state : State) (i : Nat) :
    (graph.image g).trial accept' state i =
      (graph.trial accept state i).map (Prod.map id g) := by
  rw [trial, trial, flipDelta_image hkeeps, haccept]
  cases accept (graph.flipDelta state i) with
  | error fault => rfl
  | ok accepted =>
    cases accepted with
    | true => rfl
    | false => simp [Except.map, hkeeps.zero]

theorem sweep_image (hkeeps : KeepsSums g) (graph : Graph ω) {accept : ρ → ω → Except ε Bool}
    {accept' : ρ → ω' → Except ε Bool} (haccept : ∀ r delta, accept' r (g delta) = accept r delta)
    (state : State) (delta : ω) (used : Nat) (draws : List (Nat × ρ)) :
    (graph.image g).sweep accept' state (g delta) used draws =
      (graph.sweep accept state delta used draws).image g := by
  induction draws generalizing state delta used with
  | nil => rfl
  | cons draw draws ih =>
    obtain ⟨i, r⟩ := draw
    simp only [sweep]
    rw [trial_image hkeeps graph (haccept r)]
    cases graph.trial (accept r) state i with
    | error fault => rfl
    | ok result =>
      obtain ⟨next, change⟩ := result
      simp only [Except.map, Prod.map, id_eq]
      rw [← hkeeps.add, ih]

/-- What is drawn depends on the state and the number of trials, which stay as they are. -/
theorem sweepDrawn_image (hkeeps : KeepsSums g) (graph : Graph ω) (source : Source σ ρ)
    {accept : ρ → ω → Except ε Bool} {accept' : ρ → ω' → Except ε Bool}
    (haccept : ∀ r delta, accept' r (g delta) = accept r delta) (state : State)
    (trials : Except ε Nat) (stream : σ) :
    (graph.image g).sweepDrawn source accept' state trials stream =
      (graph.sweepDrawn source accept state trials stream).map (Swept.image g) id := by
  unfold sweepDrawn
  split
  · simp [Swept.image, hkeeps.zero]
  · cases trials with
    | error fault => simp [Swept.image, hkeeps.zero]
    | ok trials =>
      simp only
      rw [← hkeeps.zero, sweep_image hkeeps graph haccept]
      generalize graph.sweep accept state 0 0 (source.draws state.size trials stream).1 = swept
      cases hfault : swept.fault? <;> simp [Swept.image, hfault]

end Graph

/-! ## Runs -/

namespace Plan

variable {plan : Plan τ ω ρ ε} {plan' : Plan τ' ω' ρ ε}

theorem coolingStep_image (hplan : plan.Images f g plan') (hkeeps : KeepsSums g)
    (source : Source σ ρ) (graph : Graph ω) (walk : Walk ω τ σ) :
    plan'.coolingStep source (graph.image g) (walk.image f g) =
      (plan.coolingStep source graph walk).map (Except.map (Walk.image f g)) id := by
  have hswept := Graph.sweepDrawn_image hkeeps graph source (hplan.accept_eq walk.temperature)
    walk.state plan.trials walk.stream
  simp only [coolingStep, Walk.image, hplan.trials_eq, hswept, hplan.cool_eq]
  generalize graph.sweepDrawn source (plan.accept walk.temperature) walk.state plan.trials
    walk.stream = swept
  obtain ⟨swept, stream⟩ := swept
  cases hfault : swept.fault? with
  | some fault => simp [Swept.image, hfault, Except.map]
  | none =>
    cases plan.cool walk.temperature with
    | error fault => simp [Swept.image, hfault, Except.map]
    | ok cooler =>
      cases hannounce : plan.announce cooler with
      | error fault => simp [Swept.image, hfault, hannounce, hplan.announce_eq, Except.map]
      | ok done =>
        simp [Swept.image, hfault, hannounce, hplan.announce_eq, hkeeps.add, Except.map,
          Walk.image]

/-- Two runs go on side by side if their cooling steps do, from all walks with a property that these
    steps keep: the one is the image of the other. -/
theorem runFrom_of_coolingStep {P : Walk ω τ σ → Prop} {source : Source σ ρ} {graph : Graph ω}
    {graph' : Graph ω'}
    (hhot : ∀ temperature, plan'.hot (f temperature) = plan.hot temperature)
    (hstep : ∀ walk, P walk → plan'.coolingStep source graph' (walk.image f g) =
      (plan.coolingStep source graph walk).map (Except.map (Walk.image f g)) id)
    (hkeep : ∀ walk next stream, P walk → plan.coolingStep source graph walk = (.ok next, stream) →
      P next)
    (stops : List Signal) (limit : Nat) {walk : Walk ω τ σ} (hwalk : P walk) :
    plan'.runFrom source graph' stops limit (walk.image f g) [] =
      (plan.runFrom source graph stops limit walk []).image f g := by
  -- The image of a walk stands at the same step, so it is stopped by the same signals.
  induction limit generalizing walk with
  | zero => rfl
  | succ limit ih =>
    have hhot : plan'.hot (walk.image f g).temperature = plan.hot walk.temperature :=
      hhot walk.temperature
    rw [runFrom_succ, runFrom_succ, hhot, hstep walk hwalk]
    cases plan.hot walk.temperature with
    | error fault => rfl
    | ok hot =>
      cases hot with
      | false => rfl
      | true =>
        by_cases hstop : stops.any (· walk.step) = true
        · have hstop' : stops.any (· (walk.image f g).step) = true := hstop
          rw [if_pos hstop, if_pos hstop']
          rfl
        · have hstop' : ¬ stops.any (· (walk.image f g).step) = true := hstop
          rw [if_neg hstop, if_neg hstop']
          cases hcooled : plan.coolingStep source graph walk with
          | mk result stream =>
            cases result with
            | error fault => rfl
            | ok next => simp [Except.map, ih (hkeep walk next stream hwalk hcooled)]

/-- Two graphs are annealed alike if their cooling steps are the same, from all walks with a property
    that these steps keep. -/
theorem runFrom_congr {P : Walk ω τ σ → Prop} {source : Source σ ρ} {graph graph' : Graph ω}
    (hstep : ∀ walk, P walk →
      plan.coolingStep source graph walk = plan.coolingStep source graph' walk)
    (hkeep : ∀ walk next stream, P walk → plan.coolingStep source graph walk = (.ok next, stream) →
      P next)
    (stops : List Signal) (limit : Nat) {walk : Walk ω τ σ} (hwalk : P walk) :
    plan.runFrom source graph stops limit walk [] =
      plan.runFrom source graph' stops limit walk [] := by
  have hhot : ∀ temperature : τ, plan.hot (id temperature) = plan.hot temperature := fun _ => rfl
  have hstep' : ∀ walk, P walk → plan.coolingStep source graph' (walk.image id id) =
      (plan.coolingStep source graph walk).map (Except.map (Walk.image id id)) id := by
    intro walk hwalk
    have hmap : Except.map (Walk.image id id) = (id : Except ε (Walk ω τ σ) → _) := by
      funext result
      cases result <;> rfl
    rw [hmap, Prod.map_id]
    exact (hstep walk hwalk).symm
  have hrun := runFrom_of_coolingStep hhot hstep' hkeep stops limit hwalk
  rw [Run.image_id] at hrun
  exact hrun.symm

/-- Whatever the draws, the stop signals and the limit, the image of a plan anneals the image of a
    graph to the image of the run. -/
theorem anneal_image (hplan : plan.Images f g plan') (hkeeps : KeepsSums g) (source : Source σ ρ)
    (graph : Graph ω) (stops : List Signal) (limit : Nat) (stream : σ) :
    plan'.anneal source (graph.image g) stops limit stream =
      (plan.anneal source graph stops limit stream).image f g := by
  have hstart : plan'.start source (graph.image g) stream =
      (plan.start source graph stream).image f g := by
    simp only [start, Graph.size_image, Graph.energy_image hkeeps, hplan.initial_eq, Walk.image]
  rw [anneal, anneal, hstart]
  exact runFrom_of_coolingStep (P := fun _ => True) hplan.hot_eq
    (fun walk _ => coolingStep_image hplan hkeeps source graph walk) (fun _ _ _ _ _ => trivial)
    stops limit trivial

end Plan

end Annealing
