import Annealing.Proofs.Anneal.Cancellation
import Annealing.Proofs.Anneal.Landscape

/-! # What an anneal draws

What an anneal draws is decided by three numbers: that of the nodes, of the trials of a sweep and
of the cooling steps.  Weights, temperatures and decisions have no part in it, although the states
of two anneals go apart at the first change that one accepts and the other does not.

A source that keeps a record of its draws tells them apart where streams do not.

* `sweepDrawn_eq_sweepByTurns` — a sweep may as well draw each trial right before it makes it.
* `stream_coolingStep`, `stream_of_finished` — the stream that a cooling step and a whole anneal
  leave behind.
* `anneal_recorded` — an anneal is the same whether or not its draws are recorded.
* `anneal_draws_eq` — so two anneals that agree in these numbers draw the same.
-/

namespace Annealing

variable {ω ω' τ σ ρ ε : Type}

/-! ## Draws one by one -/

namespace Source

theorem drawsAfter_eq (source : Source σ ρ) (n trials : Nat) (drawn : List (Nat × ρ))
    (stream : σ) :
    source.drawsAfter n trials drawn stream =
      (drawn.reverse ++ (source.draws n trials stream).1, (source.draws n trials stream).2) := by
  induction trials generalizing drawn stream with
  | zero => simp [drawsAfter, draws]
  | succ trials ih =>
    simp only [draws, drawsAfter]
    rw [ih, ih [_]]
    simp

theorem draws_succ (source : Source σ ρ) (n trials : Nat) (stream : σ) :
    source.draws n (trials + 1) stream =
      ((source.draw n stream).1 :: (source.draws n trials (source.draw n stream).2).1,
        (source.draws n trials (source.draw n stream).2).2) :=
  source.drawsAfter_eq n trials [(source.draw n stream).1] (source.draw n stream).2

/-- The stream behind the draws of a sweep over `n` nodes.  Without nodes nothing is drawn. -/
def afterSweep (source : Source σ ρ) (n : Nat) (trials : Except ε Nat) (stream : σ) : σ :=
  if n = 0 then stream
  else
    match trials with
    | .error _ => stream
    | .ok trials => (source.draws n trials stream).2

end Source

/-! ## Sweeps by turns -/

section Weights

variable [OfNat ω 0] [Add ω] [Neg ω] [OfNat ω' 0] [Add ω'] [Neg ω']

namespace Graph

/-- Draw a trial, make it, and go on, up to the first trial that fails. -/
def sweepByTurns (graph : Graph ω) (source : Source σ ρ) (accept : ρ → ω → Except ε Bool)
    (n : Nat) : (trials : Nat) → State → ω → (used : Nat) → σ → Swept ω ε × σ
  | 0, state, delta, used, stream => (⟨state, delta, used, none⟩, stream)
  | trials + 1, state, delta, used, stream =>
    let ((i, r), stream) := source.draw n stream
    match graph.trial (accept r) state i with
    | .error fault => (⟨state, delta, used + 1, some fault⟩, stream)
    | .ok (state, change) =>
      graph.sweepByTurns source accept n trials state (delta + change) (used + 1) stream

variable {graph : Graph ω} {source : Source σ ρ} {accept : ρ → ω → Except ε Bool}

theorem le_used_sweep (state : State) (delta : ω) (used : Nat) (draws : List (Nat × ρ)) :
    used ≤ (graph.sweep accept state delta used draws).used := by
  induction draws generalizing state delta used with
  | nil => exact le_rfl
  | cons draw draws ih =>
    obtain ⟨i, r⟩ := draw
    simp only [sweep]
    cases graph.trial (accept r) state i with
    | error fault => exact Nat.le_succ used
    | ok result => exact (Nat.le_succ used).trans (ih _ _ _)

/-- The trials that are drawn by turns are those that could have been drawn beforehand, up to the
    one that fails. -/
theorem sweepByTurns_eq (n trials : Nat) (state : State) (delta : ω) (used : Nat) (stream : σ) :
    let swept := graph.sweep accept state delta used (source.draws n trials stream).1
    graph.sweepByTurns source accept n trials state delta used stream =
      (swept, match swept.fault? with
        | none => (source.draws n trials stream).2
        | some _ => (source.draws n (swept.used - used) stream).2) := by
  induction trials generalizing state delta used stream with
  | zero => rfl
  | succ trials ih =>
    simp only [sweepByTurns, Source.draws_succ, sweep]
    cases graph.trial (accept (source.draw n stream).1.2) state (source.draw n stream).1.1 with
    | error fault =>
      simp only [Nat.add_sub_cancel_left]
      rfl
    | ok result =>
      simp only
      rw [ih]
      set swept := graph.sweep accept result.1 (delta + result.2) (used + 1)
        (source.draws n trials (source.draw n stream).2).1 with hswept
      cases hfault : swept.fault? with
      | none => rfl
      | some fault =>
        -- The draw that was just made is one of those that were used.
        have hused : used + 1 ≤ swept.used := le_used_sweep _ _ _ _
        obtain ⟨more, hmore⟩ := Nat.exists_eq_add_of_le hused
        have hrest : swept.used - (used + 1) = more := by omega
        have hall : swept.used - used = more + 1 := by omega
        rw [hrest, hall, Source.draws_succ]

/-- Without nodes there is nothing to sweep.  Else the trials may be drawn beforehand or by turns. -/
theorem sweepDrawn_eq_sweepByTurns (state : State) (trials : Except ε Nat) (stream : σ) :
    graph.sweepDrawn source accept state trials stream =
      if state.size = 0 then (⟨state, 0, 0, none⟩, stream)
      else
        match trials with
        | .error fault => (⟨state, 0, 0, some fault⟩, stream)
        | .ok trials =>
          graph.sweepByTurns source accept state.size trials state 0 0 stream := by
  have hempty : state.isEmpty = true ↔ state.size = 0 := by simp
  simp only [sweepDrawn, hempty]
  split
  · rfl
  · cases trials with
    | error fault => rfl
    | ok trials =>
      simp only [sweepByTurns_eq, Nat.sub_zero]
      cases (graph.sweep accept state 0 0 (source.draws state.size trials stream).1).fault? with
      | none => rfl
      | some fault => rfl

theorem size_sweep (state : State) (delta : ω) (used : Nat) (draws : List (Nat × ρ)) :
    (graph.sweep accept state delta used draws).state.size = state.size := by
  induction draws generalizing state delta used with
  | nil => rfl
  | cons draw draws ih =>
    obtain ⟨i, r⟩ := draw
    simp only [sweep]
    cases htrial : graph.trial (accept r) state i with
    | error fault => rfl
    | ok result =>
      obtain ⟨next, change⟩ := result
      exact (ih next _ _).trans (size_of_trial htrial)

theorem size_sweepDrawn (state : State) (trials : Except ε Nat) (stream : σ) :
    (graph.sweepDrawn source accept state trials stream).1.state.size = state.size := by
  unfold sweepDrawn
  split
  · rfl
  · cases trials with
    | error fault => rfl
    | ok trials =>
      simp only
      split <;> exact size_sweep _ _ _ _

/-- A sweep without faults leaves the stream behind all of its draws, whatever was accepted. -/
theorem stream_sweepDrawn {state : State} {trials : Except ε Nat} {stream : σ}
    (hfault : (graph.sweepDrawn source accept state trials stream).1.fault? = none) :
    (graph.sweepDrawn source accept state trials stream).2 =
      source.afterSweep state.size trials stream := by
  rw [sweepDrawn_eq_sweepByTurns] at hfault ⊢
  unfold Source.afterSweep
  by_cases hnodes : state.size = 0
  · simp only [if_pos hnodes]
  · simp only [if_neg hnodes] at hfault ⊢
    cases trials with
    | error fault => rfl
    | ok trials =>
      simp only [sweepByTurns_eq] at hfault ⊢
      rw [hfault]

end Graph

/-! ## The stream of an anneal -/

namespace Plan

variable {plan : Plan τ ω ρ ε} {source : Source σ ρ} {graph : Graph ω}

theorem stream_coolingStep {walk next : Walk ω τ σ} {stream : σ}
    (hstep : plan.coolingStep source graph walk = (.ok next, stream)) :
    next.state.size = walk.state.size ∧
      next.stream = source.afterSweep walk.state.size plan.trials walk.stream := by
  obtain ⟨hfault, -, -, -, hnext⟩ := coolingStep_eq_ok hstep
  rw [hnext]
  exact ⟨Graph.size_sweepDrawn _ _ _, Graph.stream_sweepDrawn hfault⟩

/-- An anneal that finishes has made as many sweeps as its schedule counts cooling steps. -/
theorem stream_of_finished {stops : List Signal} {limit n : Nat} {walk : Walk ω τ σ}
    (hcount : plan.countFrom limit walk.temperature walk.step = .ok (some n))
    (hfinished : (plan.runFrom source graph stops limit walk []).ending = .finished) :
    (plan.runFrom source graph stops limit walk []).stream =
      (source.afterSweep walk.state.size plan.trials)^[n - walk.step] walk.stream := by
  induction limit generalizing walk with
  | zero => cases hcount
  | succ limit ih =>
    cases Schedule.countFrom_eq_some hcount with
    | inl hdone =>
      rw [runFrom_succ, hdone.1, ← hdone.2, Nat.sub_self]
      rfl
    | inr hgoes =>
      obtain ⟨hhot, cooler, hcool, hrest⟩ := hgoes
      rw [runFrom_succ, hhot] at hfinished ⊢
      simp only at hfinished ⊢
      split at hfinished
      · cases hfinished
      · rename_i hstop
        rw [if_neg hstop]
        cases hstep : plan.coolingStep source graph walk with
        | mk result stream =>
          rw [hstep] at hfinished
          cases result with
          | error fault => cases hfinished
          | ok next =>
            obtain ⟨-, hcooled, -, -, hnext⟩ := coolingStep_eq_ok hstep
            obtain rfl : cooler = next.temperature := by rwa [hcool, Except.ok.injEq] at hcooled
            have hcount : next.step = walk.step + 1 := by rw [hnext]
            obtain ⟨hsize, hstream⟩ := stream_coolingStep hstep
            have hsteps : n - walk.step = n - next.step + 1 := by
              have hle := Schedule.le_of_countFrom hrest
              omega
            rw [← hcount] at hrest
            rw [hsteps, Function.iterate_succ_apply, ← hstream, ← hsize]
            exact ih hrest hfinished

end Plan

/-! ## Recorded draws -/

/-- One draw from a source. -/
inductive Drawn (ρ : Type) where
  | coin (set : Bool)
  | place (i : Nat)
  | unit (r : ρ)

/-- A stream together with the draws that were made from it. -/
structure Record (σ ρ : Type) where
  drawn : List (Drawn ρ)
  stream : σ

namespace Source

/-- The same source, with a record of what is drawn from it. -/
def recorded (source : Source σ ρ) : Source (Record σ ρ) ρ where
  seeded seed := ⟨[], source.seeded seed⟩
  coin record :=
    let (set, stream) := source.coin record.stream
    (set, ⟨record.drawn ++ [.coin set], stream⟩)
  place n record :=
    let (i, stream) := source.place n record.stream
    (i, ⟨record.drawn ++ [.place i], stream⟩)
  unit record :=
    let (r, stream) := source.unit record.stream
    (r, ⟨record.drawn ++ [.unit r], stream⟩)
  place_lt n record := source.place_lt n record.stream

theorem bitsAfter_recorded (source : Source σ ρ) (n : Nat) (state : State) (record : Record σ ρ) :
    (source.recorded.bitsAfter n state record).map id Record.stream =
      source.bitsAfter n state record.stream := by
  induction n generalizing state record with
  | zero => rfl
  | succ n ih =>
    simp only [bitsAfter]
    rw [ih]
    rfl

/-- The trials of a sweep stand in the record: for each the node, and then the number for the
    decision. -/
theorem draws_recorded (source : Source σ ρ) (n trials : Nat) (record : Record σ ρ) :
    source.recorded.draws n trials record =
      ((source.draws n trials record.stream).1,
        ⟨record.drawn ++ (source.draws n trials record.stream).1.flatMap
            fun trial => [.place trial.1, .unit trial.2],
          (source.draws n trials record.stream).2⟩) := by
  induction trials generalizing record with
  | zero => simp [draws, drawsAfter]
  | succ trials ih =>
    rw [draws_succ, draws_succ, ih]
    simp [draw, recorded]

end Source

/-- The same walk without the record. -/
def Walk.plain (walk : Walk ω τ (Record σ ρ)) : Walk ω τ σ :=
  { walk with stream := walk.stream.stream }

/-- The same run without the record. -/
def Run.plain (run : Run ω τ (Record σ ρ) ε) : Run ω τ σ ε :=
  { run with stream := run.stream.stream }

theorem Graph.sweepDrawn_recorded (graph : Graph ω) (source : Source σ ρ)
    (accept : ρ → ω → Except ε Bool) (state : State) (trials : Except ε Nat)
    (record : Record σ ρ) :
    (graph.sweepDrawn source.recorded accept state trials record).map id Record.stream =
      graph.sweepDrawn source accept state trials record.stream := by
  unfold sweepDrawn
  split
  · rfl
  · cases trials with
    | error fault => rfl
    | ok trials =>
      simp only [Source.draws_recorded]
      split <;> rfl

namespace Plan

variable (plan : Plan τ ω ρ ε) (source : Source σ ρ) (graph : Graph ω)

theorem coolingStep_recorded (walk : Walk ω τ (Record σ ρ)) :
    (plan.coolingStep source.recorded graph walk).map (Except.map Walk.plain) Record.stream =
      plan.coolingStep source graph walk.plain := by
  simp only [coolingStep, Walk.plain]
  rw [← Graph.sweepDrawn_recorded]
  obtain ⟨swept, record⟩ := graph.sweepDrawn source.recorded (plan.accept walk.temperature)
    walk.state plan.trials walk.stream
  simp only [Prod.map, id_eq]
  cases swept.fault? with
  | some fault => rfl
  | none =>
    cases plan.cool walk.temperature with
    | error fault => rfl
    | ok cooler =>
      simp only
      cases plan.announce cooler with
      | error fault => rfl
      | ok done => rfl

theorem runFrom_recorded (stops : List Signal) (limit : Nat) (walk : Walk ω τ (Record σ ρ)) :
    (plan.runFrom source.recorded graph stops limit walk []).plain =
      plan.runFrom source graph stops limit walk.plain [] := by
  induction limit generalizing walk with
  | zero => rfl
  | succ limit ih =>
    have hhot : plan.hot walk.plain.temperature = plan.hot walk.temperature := rfl
    have hstop : stops.any (· walk.plain.step) = stops.any (· walk.step) := rfl
    rw [runFrom_succ, runFrom_succ, ← coolingStep_recorded, hhot]
    cases plan.hot walk.temperature with
    | error fault => rfl
    | ok hot =>
      cases hot with
      | false => rfl
      | true =>
        simp only [hstop]
        split
        · rfl
        · obtain ⟨result, record⟩ := plan.coolingStep source.recorded graph walk
          cases result with
          | error fault => rfl
          | ok next =>
            simp only [Prod.map, Except.map]
            rw [← ih]
            rfl

/-- An anneal does not notice that its draws are recorded. -/
theorem anneal_recorded (stops : List Signal) (limit : Nat) (record : Record σ ρ) :
    (plan.anneal source.recorded graph stops limit record).plain =
      plan.anneal source graph stops limit record.stream := by
  rw [anneal, anneal, runFrom_recorded]
  simp only [start, Walk.plain, Source.bits]
  rw [← Source.bitsAfter_recorded]
  rfl

/-- What an anneal draws, from the first coin of its state on. -/
def drawn (stops : List Signal) (limit : Nat) (stream : σ) : List (Drawn ρ) :=
  (plan.anneal source.recorded graph stops limit ⟨[], stream⟩).stream.drawn

/-- The record of an anneal that finishes: the coins of its state, and then one sweep for each
    cooling step. -/
theorem record_of_finished {stops : List Signal} {limit n : Nat} {stream : σ}
    (hcount : plan.countSteps limit = .ok (some n))
    (hfinished : (plan.anneal source graph stops limit stream).ending = .finished) :
    (plan.anneal source.recorded graph stops limit ⟨[], stream⟩).stream =
      (source.recorded.afterSweep graph.size plan.trials)^[n]
        (source.recorded.bits graph.size ⟨[], stream⟩).2 := by
  have hrecorded : (plan.anneal source.recorded graph stops limit ⟨[], stream⟩).ending =
      .finished := by
    rw [← hfinished, ← anneal_recorded plan source graph stops limit ⟨[], stream⟩]
    rfl
  have hstart : plan.countFrom limit (plan.start source.recorded graph ⟨[], stream⟩).temperature
      (plan.start source.recorded graph ⟨[], stream⟩).step = .ok (some n) := hcount
  have hrun := stream_of_finished hstart hrecorded
  have hsize := (source.recorded.bits_binary graph.size ⟨[], stream⟩).size_eq
  rw [anneal, hrun]
  simp only [start, hsize, Nat.sub_zero]

end Plan

/-! ## Two anneals -/

/-- An engine for examples that accepts every change of energy. -/
def Engine.restless : Engine ℚ Twister Float :=
  { Engine.downhill with accept := fun _ _ _ => .ok true }

namespace Params

/-- Two complete anneals from one stream, of graphs with as many nodes, by parameters with the same
    sweeps and the same number of cooling steps.  They start from the same state, make the same
    draws in the same order, that is the same nodes with the same numbers to decide on, and leave
    the same stream behind, whatever the weights of the graphs, the temperatures, and the rules by
    which changes are accepted. -/
theorem anneal_draws_eq {params params' : Params} {accept : Value → ρ → ω → Except Fault Bool}
    {accept' : Value → ρ → ω' → Except Fault Bool} {source : Source σ ρ} {graph : Graph ω}
    {graph' : Graph ω'} {stops stops' : List Signal} {limit limit' n : Nat} {stream : σ}
    (hsize : graph.size = graph'.size)
    (hsweeps : params.sweepsPerTemperature = params'.sweepsPerTemperature)
    (hcount : params.schedule.countSteps limit = .ok (some n))
    (hcount' : params'.schedule.countSteps limit' = .ok (some n))
    (hfinished : ((params.plan accept).anneal source graph stops limit stream).ending = .finished)
    (hfinished' :
      ((params'.plan accept').anneal source graph' stops' limit' stream).ending = .finished) :
    let plan := params.plan accept
    let plan' := params'.plan accept'
    (plan.start source graph stream).state = (plan'.start source graph' stream).state ∧
      plan.drawn source graph stops limit stream =
        plan'.drawn source graph' stops' limit' stream ∧
      (plan.anneal source graph stops limit stream).stream =
        (plan'.anneal source graph' stops' limit' stream).stream := by
  intro plan plan'
  have htrials : plan.trials = plan'.trials := congrArg trialCount hsweeps
  have hrecord : (plan.anneal source.recorded graph stops limit ⟨[], stream⟩).stream =
      (plan'.anneal source.recorded graph' stops' limit' ⟨[], stream⟩).stream := by
    rw [Plan.record_of_finished plan source graph hcount hfinished,
      Plan.record_of_finished plan' source graph' hcount' hfinished', hsize, htrials]
  refine ⟨?_, congrArg Record.drawn hrecord, ?_⟩
  · simp only [Plan.start, hsize]
  · rw [← Plan.anneal_recorded plan source graph stops limit ⟨[], stream⟩,
      ← Plan.anneal_recorded plan' source graph' stops' limit' ⟨[], stream⟩]
    exact congrArg Record.stream hrecord

/-- Parameters for examples: as many cooling steps as those of `sample`, by other temperatures. -/
def chilled : Params :=
  ⟨.int 3, .float 0.25, .float 0.02, .int 5⟩

theorem anneal_draws_eq_sample :
    let plan := sample.plan Engine.downhill.accept
    let plan' := chilled.plan Engine.restless.accept
    let run := plan.anneal Twister.source Graph.cancelling [] stepLimit (Twister.seeded 1)
    let run' := plan'.anneal Twister.source Graph.uncoupled [] stepLimit (Twister.seeded 1)
    Graph.cancelling.size = Graph.uncoupled.size ∧
      sample.sweepsPerTemperature = chilled.sweepsPerTemperature ∧
      sample.schedule.countSteps stepLimit = .ok (some 4) ∧
      chilled.schedule.countSteps stepLimit = .ok (some 4) ∧
      run.ending = .finished ∧ run'.ending = .finished ∧ run.stream = run'.stream ∧
      plan.drawn Twister.source Graph.cancelling [] stepLimit (Twister.seeded 1) =
        plan'.drawn Twister.source Graph.uncoupled [] stepLimit (Twister.seeded 1) := by
  have hsize : Graph.cancelling.size = Graph.uncoupled.size := rfl
  have hsweeps : sample.sweepsPerTemperature = chilled.sweepsPerTemperature := rfl
  have hcount : sample.schedule.countSteps stepLimit = .ok (some 4) := rfl
  have hcount' : chilled.schedule.countSteps stepLimit = .ok (some 4) := rfl
  have hsteady : (sample.plan Engine.downhill.accept).Steady Temperature.IsNumber :=
    steady_of_factor (fun _ _ _ _ _ => ⟨_, rfl⟩) rfl ⟨5, rfl⟩
  have hsteady' : (chilled.plan Engine.restless.accept).Steady Temperature.IsNumber :=
    steady_of_factor (fun _ _ _ _ _ => ⟨_, rfl⟩) rfl ⟨5, rfl⟩
  have hfinished := Plan.anneal_finished Twister.source Graph.cancelling hsteady
    ⟨_, _, rfl, rfl⟩ hcount (Twister.seeded 1)
  have hfinished' := Plan.anneal_finished Twister.source Graph.uncoupled hsteady'
    ⟨_, _, rfl, rfl⟩ hcount' (Twister.seeded 1)
  obtain ⟨-, hdrawn, hstream⟩ :=
    anneal_draws_eq hsize hsweeps hcount hcount' hfinished hfinished'
  exact ⟨hsize, hsweeps, hcount, hcount', hfinished, hfinished', hstream, hdrawn⟩

end Params

end Weights

end Annealing
