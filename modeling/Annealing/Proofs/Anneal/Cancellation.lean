import Annealing.Proofs.Anneal.Reports
import Annealing.Proofs.Params.Numeric
import Annealing.Solver
import Mathlib.Order.Bounds.Defs

/-! # What a stop signal cuts off

A stop signal is looked at before each cooling step, after the look at the temperature.  An anneal
with stop signals is compared here with the same anneal without any, whose schedule ends after `n`
steps.

* `runFrom_cut` — if a signal is first set at the look after `k < n` steps, just the first `k`
  reports come out, and the anneal says that it was cancelled after `k` steps.
* `runFrom_uncut` — if no signal is set at any of these looks, nothing changes: a signal that is
  set later comes too late.
* `runFrom_more` — nor does a greater limit.
* `runFrom_finished` — where neither sweeps nor temperatures fail, the anneal without signals
  finishes with `n + 1` reports.
* `annealWithin_stops` — the three together, for parameters.
-/

namespace Annealing

variable {ω τ σ ρ ε : Type}

/-- Is a signal set at the look after some steps? -/
def SetAt (stops : List Signal) (steps : Nat) : Prop :=
  ∃ stop ∈ stops, stop steps = true

theorem any_iff_setAt {stops : List Signal} {steps : Nat} :
    stops.any (· steps) = true ↔ SetAt stops steps :=
  List.any_eq_true

/-- A count that comes to an end either stops where it is or goes on by one cooling step. -/
theorem Schedule.countFrom_eq_some {schedule : Schedule τ ε} {limit steps n : Nat} {temperature : τ}
    (hcount : schedule.countFrom (limit + 1) temperature steps = .ok (some n)) :
    (schedule.hot temperature = .ok false ∧ steps = n) ∨
      (schedule.hot temperature = .ok true ∧ ∃ cooler, schedule.cool temperature = .ok cooler ∧
        schedule.countFrom limit cooler (steps + 1) = .ok (some n)) := by
  rw [countFrom] at hcount
  cases hhot : schedule.hot temperature with
  | error fault => simp [hhot] at hcount
  | ok hot =>
    cases hot with
    | false => exact .inl ⟨rfl, by simpa [hhot] using hcount⟩
    | true =>
      cases hcool : schedule.cool temperature with
      | error fault => simp [hhot, hcool] at hcount
      | ok cooler => exact .inr ⟨rfl, cooler, rfl, by simpa [hhot, hcool] using hcount⟩

/-- A count never falls. -/
theorem Schedule.le_of_countFrom {schedule : Schedule τ ε} {limit steps n : Nat} {temperature : τ}
    (hcount : schedule.countFrom limit temperature steps = .ok (some n)) : steps ≤ n := by
  induction limit generalizing temperature steps with
  | zero => cases hcount
  | succ limit ih =>
    cases countFrom_eq_some hcount with
    | inl hdone => exact hdone.2.le
    | inr hgoes =>
      obtain ⟨-, cooler, -, hrest⟩ := hgoes
      exact Nat.le_of_succ_le (ih hrest)

namespace Plan

section Cuts

variable [OfNat ω 0] [Add ω] [Neg ω] {plan : Plan τ ω ρ ε} (source : Source σ ρ)
  (graph : Graph ω)

/-! ## One turn -/

/-- A signal that is set at a look ends the anneal there. -/
theorem runFrom_of_setAt {walk : Walk ω τ σ} {stops : List Signal} (limit : Nat)
    (hhot : plan.hot walk.temperature = .ok true) (hset : SetAt stops walk.step) :
    plan.runFrom source graph stops (limit + 1) walk [] =
      ⟨[], .cancelled walk.step, walk.stream⟩ := by
  rw [runFrom_succ, hhot]
  simp only [any_iff_setAt.mpr hset, if_true]

/-- Otherwise the next cooling step fails or succeeds, in the same way for all signals that are
    not set now. -/
theorem runFrom_of_hot {walk : Walk ω τ σ} {cooler : τ} (limit : Nat)
    (hhot : plan.hot walk.temperature = .ok true)
    (hcool : plan.cool walk.temperature = .ok cooler) :
    (∃ fault stream, ∀ stops, ¬ SetAt stops walk.step →
        plan.runFrom source graph stops (limit + 1) walk [] = ⟨[], .failed fault, stream⟩) ∨
      ∃ next : Walk ω τ σ, next.step = walk.step + 1 ∧ next.temperature = cooler ∧
        ∀ stops, ¬ SetAt stops walk.step →
          plan.runFrom source graph stops (limit + 1) walk [] =
            (plan.runFrom source graph stops limit next []).after [next.report false] := by
  have hcalm : ∀ {stops : List Signal}, ¬ SetAt stops walk.step →
      ¬ stops.any (· walk.step) = true :=
    fun hunset hany => hunset (any_iff_setAt.mp hany)
  cases hstep : plan.coolingStep source graph walk with
  | mk result stream =>
    cases result with
    | error fault =>
      refine .inl ⟨fault, stream, fun stops hunset => ?_⟩
      rw [runFrom_succ, hhot, hstep]
      exact if_neg (hcalm hunset)
    | ok next =>
      obtain ⟨-, hcooled, -, -, hnext⟩ := coolingStep_eq_ok hstep
      rw [hcool, Except.ok.injEq] at hcooled
      refine .inr ⟨next, by rw [hnext], hcooled.symm, fun stops hunset => ?_⟩
      rw [runFrom_succ, hhot, hstep]
      exact if_neg (hcalm hunset)

theorem not_setAt_nil (steps : Nat) : ¬ SetAt [] steps := by
  simp [SetAt]

/-! ## Cut and uncut runs -/

/-- A signal that is first set at a look that the anneal without signals gets to, while the schedule
    goes on, cuts off what would come after. -/
theorem runFrom_cut {stops : List Signal} {limit n k : Nat} {walk : Walk ω τ σ}
    (hcount : plan.countFrom limit walk.temperature walk.step = .ok (some n))
    (hstart : walk.step ≤ k) (hk : k < n)
    (hreached : k ≤ walk.step + (plan.runFrom source graph [] limit walk []).reports.length)
    (hfirst : ∀ j, walk.step ≤ j → j < k → ¬ SetAt stops j) (hset : SetAt stops k) :
    (plan.runFrom source graph stops limit walk []).reports =
        (plan.runFrom source graph [] limit walk []).reports.take (k - walk.step) ∧
      (plan.runFrom source graph stops limit walk []).ending = .cancelled k := by
  induction limit generalizing walk with
  | zero => cases hcount
  | succ limit ih =>
    cases Schedule.countFrom_eq_some hcount with
    | inl hdone => omega
    | inr hgoes =>
      obtain ⟨hhot, cooler, hcool, hrest⟩ := hgoes
      by_cases hnow : walk.step = k
      · subst hnow
        rw [runFrom_of_setAt source graph limit hhot hset, Nat.sub_self]
        exact ⟨rfl, rfl⟩
      · have hunset : ¬ SetAt stops walk.step := hfirst walk.step le_rfl (by omega)
        cases runFrom_of_hot source graph limit hhot hcool with
        | inl hfails =>
          -- The anneal without signals fails in this very step, so it does not get to the look.
          obtain ⟨fault, stream, hrun⟩ := hfails
          rw [hrun [] (not_setAt_nil _), List.length_nil] at hreached
          omega
        | inr hsteps =>
          obtain ⟨next, hnext, rfl, hrun⟩ := hsteps
          rw [hrun [] (not_setAt_nil _), Run.after, List.length_append,
            List.length_singleton] at hreached
          rw [← hnext] at hrest
          obtain ⟨hreports, hending⟩ := ih hrest (by omega) (by omega)
            fun j hj => hfirst j (by omega)
          have hsub : k - walk.step = k - next.step + 1 := by omega
          rw [hrun stops hunset, hrun [] (not_setAt_nil _), hsub]
          exact ⟨by simp [Run.after, hreports], hending⟩

/-- Signals that are set at none of the looks that the anneal without them gets to change
    nothing. -/
theorem runFrom_uncut {stops : List Signal} {limit n : Nat} {walk : Walk ω τ σ}
    (hcount : plan.countFrom limit walk.temperature walk.step = .ok (some n))
    (hnone : ∀ k, walk.step ≤ k → k < n →
      k ≤ walk.step + (plan.runFrom source graph [] limit walk []).reports.length →
      ¬ SetAt stops k) :
    plan.runFrom source graph stops limit walk [] = plan.runFrom source graph [] limit walk [] := by
  induction limit generalizing walk with
  | zero => rfl
  | succ limit ih =>
    cases Schedule.countFrom_eq_some hcount with
    | inl hdone => rw [runFrom_succ, runFrom_succ, hdone.1]
    | inr hgoes =>
      obtain ⟨hhot, cooler, hcool, hrest⟩ := hgoes
      have hunset : ¬ SetAt stops walk.step :=
        hnone walk.step le_rfl (Schedule.le_of_countFrom hrest) (by omega)
      cases runFrom_of_hot source graph limit hhot hcool with
      | inl hfails =>
        obtain ⟨fault, stream, hrun⟩ := hfails
        rw [hrun stops hunset, hrun [] (not_setAt_nil _)]
      | inr hsteps =>
        obtain ⟨next, hnext, rfl, hrun⟩ := hsteps
        rw [hrun [] (not_setAt_nil _), Run.after, List.length_append,
          List.length_singleton] at hnone
        rw [← hnext] at hrest
        rw [hrun stops hunset, hrun [] (not_setAt_nil _),
          ih hrest fun k hstart hk hreached => hnone k (by omega) hk (by omega)]

/-- A limit that the schedule does not reach might as well be greater. -/
theorem runFrom_more {stops : List Signal} {limit more n : Nat} {walk : Walk ω τ σ}
    (hcount : plan.countFrom limit walk.temperature walk.step = .ok (some n))
    (hmore : limit ≤ more) :
    plan.runFrom source graph stops more walk [] =
      plan.runFrom source graph stops limit walk [] := by
  induction limit generalizing more walk with
  | zero => cases hcount
  | succ limit ih =>
    cases more with
    | zero => omega
    | succ more =>
      cases Schedule.countFrom_eq_some hcount with
      | inl hdone => rw [runFrom_succ, runFrom_succ, hdone.1]
      | inr hgoes =>
        obtain ⟨hhot, cooler, hcool, hrest⟩ := hgoes
        rw [runFrom_succ, runFrom_succ, hhot]
        cases hstep : plan.coolingStep source graph walk with
        | mk result stream =>
          cases result with
          | error fault => rfl
          | ok next =>
            obtain ⟨-, hcooled, -, -, hnext⟩ := coolingStep_eq_ok hstep
            obtain rfl : cooler = next.temperature := by rwa [hcool, Except.ok.injEq] at hcooled
            have hstep_eq : next.step = walk.step + 1 := by rw [hnext]
            rw [← hstep_eq] at hrest
            simp only [ih hrest (Nat.le_of_succ_le_succ hmore)]

/-! ## Runs without faults -/

/-- A sweep whose changes are all decided on gets to its end. -/
theorem fault?_sweep {accept : ρ → ω → Except ε Bool}
    (hdecides : ∀ r delta, ∃ accepted, accept r delta = .ok accepted) (state : State) (delta : ω)
    (used : Nat) (draws : List (Nat × ρ)) :
    (graph.sweep accept state delta used draws).fault? = none := by
  induction draws generalizing state delta used with
  | nil => rfl
  | cons draw draws ih =>
    obtain ⟨i, r⟩ := draw
    obtain ⟨accepted, haccept⟩ := hdecides r (graph.flipDelta state i)
    simp only [Graph.sweep, Graph.trial, haccept, Except.map]
    exact ih _ _ _

/-- At temperatures with a property that cooling keeps, all changes are decided on, and the cooler
    temperature can be announced. -/
structure Steady (plan : Plan τ ω ρ ε) (P : τ → Prop) : Prop where
  trials_ok : ∃ trials, plan.trials = .ok trials
  decides : ∀ temperature cooler, P temperature → plan.cool temperature = .ok cooler →
    ∀ r delta, ∃ accepted, plan.accept temperature r delta = .ok accepted
  announce_ok : ∀ temperature cooler, P temperature → plan.cool temperature = .ok cooler →
    plan.announce cooler = .ok ()
  keep : ∀ temperature cooler, P temperature → plan.cool temperature = .ok cooler → P cooler

theorem coolingStep_of_steady {P : τ → Prop} (hsteady : plan.Steady P) {walk : Walk ω τ σ}
    {cooler : τ} (hwalk : P walk.temperature) (hcool : plan.cool walk.temperature = .ok cooler) :
    ∃ next stream, plan.coolingStep source graph walk = (.ok next, stream) := by
  obtain ⟨trials, htrials⟩ := hsteady.trials_ok
  have hdecides := hsteady.decides _ _ hwalk hcool
  have hswept : (graph.sweepDrawn source (plan.accept walk.temperature) walk.state plan.trials
      walk.stream).1.fault? = none := by
    unfold Graph.sweepDrawn
    split
    · rfl
    · simp only [htrials, fault?_sweep graph hdecides]
  unfold coolingStep
  simp only [hswept, hcool, hsteady.announce_ok _ _ hwalk hcool]
  exact ⟨_, _, rfl⟩

/-- An anneal without signals and without faults goes through its whole schedule. -/
theorem runFrom_finished {P : τ → Prop} (hsteady : plan.Steady P) {limit n : Nat}
    {walk : Walk ω τ σ} (hwalk : P walk.temperature)
    (hcount : plan.countFrom limit walk.temperature walk.step = .ok (some n)) :
    (plan.runFrom source graph [] limit walk []).ending = .finished ∧
      walk.step + (plan.runFrom source graph [] limit walk []).reports.length = n + 1 := by
  induction limit generalizing walk with
  | zero => cases hcount
  | succ limit ih =>
    cases Schedule.countFrom_eq_some hcount with
    | inl hdone =>
      rw [runFrom_succ, hdone.1]
      exact ⟨rfl, by rw [← hdone.2]; rfl⟩
    | inr hgoes =>
      obtain ⟨hhot, cooler, hcool, hrest⟩ := hgoes
      obtain ⟨next, stream, hstep⟩ :=
        coolingStep_of_steady source graph hsteady hwalk hcool
      obtain ⟨-, hcooled, -, -, hnext⟩ := coolingStep_eq_ok hstep
      obtain rfl : cooler = next.temperature := by rwa [hcool, Except.ok.injEq] at hcooled
      have hstep_eq : next.step = walk.step + 1 := by rw [hnext]
      rw [← hstep_eq] at hrest
      obtain ⟨hending, hlength⟩ := ih (hsteady.keep _ _ hwalk hcool) hrest
      rw [runFrom_succ, hhot]
      simp only [List.any_nil, Bool.false_eq_true, if_false, hstep, Run.after,
        List.length_append, List.length_singleton]
      exact ⟨hending, by omega⟩

theorem anneal_finished {P : τ → Prop} (hsteady : plan.Steady P) (hinitial : P plan.initial)
    {limit n : Nat} (hcount : plan.countSteps limit = .ok (some n)) (stream : σ) :
    (plan.anneal source graph [] limit stream).ending = .finished := by
  have hstart : plan.countFrom limit (plan.start source graph stream).temperature
      (plan.start source graph stream).step = .ok (some n) := hcount
  exact (runFrom_finished source graph hsteady hinitial hstart).1

end Cuts

end Plan

/-! ## Anneals of parameters -/

/-- The engine decides on every change of energy at a temperature that is a double. -/
def Engine.Decides (engine : Engine ω σ ρ) : Prop :=
  ∀ (temperature : Value) (x : Float), temperature.toFloat? = .ok x →
    ∀ r delta, ∃ accepted, engine.accept temperature r delta = .ok accepted

/-- The Metropolis rule decides, whatever the exponential. -/
theorem Engine.doubles_decides (exp : Float → Float) (source : Source σ Float) (memory : Storage) :
    (Engine.doubles exp source memory).Decides := by
  intro temperature x htemperature r delta
  have hsequence : temperature.isSequence = false := by
    cases temperature with
    | none | bool _ | int _ | float _ | text _ | dict _ => rfl
    | list _ | tuple _ => cases htemperature
  change ∃ accepted, metropolis exp temperature (.float r) delta = .ok accepted
  unfold metropolis
  split
  · exact ⟨true, rfl⟩
  · simp only [thresholds, hsequence, htemperature]
    exact ⟨_, rfl⟩

/-- A temperature that is a single number. -/
def Temperature.IsNumber (temperature : Temperature) : Prop :=
  ∃ value a, temperature = .ofValue value ∧ value.number? = some a

/-- Where the factor is a double and the number of sweeps is whole, an engine that decides anneals
    without faults at temperatures that are numbers. -/
theorem Params.steady_of_factor {engine : Engine ω σ ρ} (hdecides : engine.Decides)
    {params : Params} {factor : Float}
    (hfactor : params.coolingFactor.number? = some (.float factor))
    (hwhole : ∃ trials, trialCount params.sweepsPerTemperature = .ok trials) :
    (params.plan engine.accept).Steady Temperature.IsNumber := by
  have hcooled : ∀ temperature cooler : Temperature, temperature.IsNumber →
      params.schedule.cool temperature = .ok cooler →
      (∃ x, temperature.toValue.toFloat? = .ok x) ∧ ∃ x, cooler = .ofValue (.float x) := by
    rintro temperature cooler ⟨value, a, rfl, hvalue⟩ hcool
    change (Temperature.ofValue value).mul? params.coolingFactor = .ok cooler at hcool
    rw [Temperature.mul?_of_number hvalue hfactor] at hcool
    rw [Temperature.toValue_of_number hvalue, Value.toFloat?_of_number hvalue]
    cases hx : a.toFloat? with
    | error fault => simp [hx, Except.map] at hcool
    | ok x =>
      simp only [hx, Except.map, Except.ok.injEq] at hcool
      exact ⟨⟨x, rfl⟩, x * factor, hcool.symm⟩
  refine ⟨hwhole, ?_, ?_, ?_⟩
  · intro temperature cooler hnumber hcool
    obtain ⟨⟨x, hx⟩, -⟩ := hcooled temperature cooler hnumber hcool
    exact hdecides _ x hx
  · intro temperature cooler hnumber hcool
    obtain ⟨-, x, rfl⟩ := hcooled temperature cooler hnumber hcool
    rfl
  · intro temperature cooler hnumber hcool
    obtain ⟨-, x, rfl⟩ := hcooled temperature cooler hnumber hcool
    exact ⟨_, _, rfl, rfl⟩

/-- Regular parameters with a whole number of sweeps are annealed without faults by an engine that
    decides. -/
theorem Params.Regular.steady {engine : Engine ω σ ρ} (hdecides : engine.Decides) {params : Params}
    {initial final : Number} {factor : Float} (hregular : params.Regular initial final factor)
    (hwhole : ∃ trials, trialCount params.sweepsPerTemperature = .ok trials) :
    (params.plan engine.accept).Steady Temperature.IsNumber :=
  Params.steady_of_factor hdecides hregular.factor_eq hwhole

/-- An anneal with stop signals against the same anneal without any, where the schedule ends after
    `n` steps.  If a signal is first set at the look after `k < n` steps, the first `k` reports
    come out, and the anneal is cancelled after `k` steps; if none is set at any of these looks,
    nothing changes at all.  Both hold as far as the anneal without signals gets, which is to its
    finished report after all `n` steps unless it fails by itself: with parameters that are
    accepted, a whole number of sweeps and an engine that decides, it does not. -/
theorem Engine.annealWithin_stops [OfNat ω 0] [Add ω] [Neg ω] {engine : Engine ω σ ρ}
    {params : Params} {limit n : Nat} {seed? : Option Int} {stream start : σ}
    (hends : params.schedule.countSteps limit = .ok (some n))
    (hseed : engine.source.streamFor seed? stream = .ok start) (graph : Graph ω)
    (stops : List Signal) :
    let free := engine.annealWithin limit params seed? graph [] stream
    let run := engine.annealWithin limit params seed? graph stops stream
    (∀ k < n, k ≤ free.reports.length → IsLeast {steps | SetAt stops steps} k →
        run.reports = free.reports.take k ∧ run.ending = .cancelled k) ∧
      ((∀ k < n, k ≤ free.reports.length → ¬ SetAt stops k) → run = free) ∧
      (engine.Decides → params.Numeric → params.validate = .ok params →
        (∃ trials, trialCount params.sweepsPerTemperature = .ok trials) →
        free.ending = .finished ∧ free.reports.length = n + 1) := by
  simp only [annealWithin, hseed, Plan.anneal]
  set plan := params.plan engine.accept
  set walk := plan.start engine.source graph start with hwalk
  have hstep : walk.step = 0 := rfl
  have hcount : plan.countFrom limit walk.temperature walk.step = .ok (some n) := hends
  refine ⟨?_, ?_, ?_⟩
  · intro k hk hreached hleast
    have hcut := Plan.runFrom_cut engine.source graph hcount
      (Nat.zero_le k) hk (by omega) (fun j _ hj hset => Nat.not_le.mpr hj (hleast.2 hset))
      hleast.1
    rwa [hstep, Nat.sub_zero] at hcut
  · intro hnone
    exact Plan.runFrom_uncut engine.source graph hcount fun k _ hk hreached => hnone k hk (by omega)
  · intro hdecides hnumeric hvalid hwhole
    obtain ⟨initial, final, factor, hregular⟩ := Params.exists_regular hnumeric hvalid
    have hnumber : walk.temperature.IsNumber :=
      ⟨params.initialTemperature, initial, rfl, hregular.initial_eq⟩
    have hfinished := Plan.runFrom_finished engine.source graph
      (hregular.steady hdecides hwhole) hnumber hcount
    rwa [hstep, Nat.zero_add] at hfinished

theorem Engine.annealWithin_stops_sample :
    let engine := Engine.doubles Float.exp Twister.source .gibibyte
    let stops : List Signal := [fun steps => 3 ≤ steps, fun steps => 2 ≤ steps]
    Params.sample.schedule.countSteps stepLimit = .ok (some 4) ∧
      engine.source.streamFor (some 1) (Twister.seeded 0) = .ok (Twister.seeded 1) ∧
      ∃ graph, Graph.build engine.weigh Coefficients.sample = .ok graph ∧
        let free := engine.annealWithin stepLimit Params.sample (some 1) graph []
          (Twister.seeded 0)
        let run := engine.annealWithin stepLimit Params.sample (some 1) graph stops
          (Twister.seeded 0)
        free.ending = .finished ∧ free.reports.length = 5 ∧ run.reports = free.reports.take 2 ∧
          run.ending = .cancelled 2 := by
  intro engine stops
  have hends : Params.sample.schedule.countSteps stepLimit = .ok (some 4) := rfl
  have hseed : engine.source.streamFor (some 1) (Twister.seeded 0) = .ok (Twister.seeded 1) := rfl
  have hnumeric : Params.sample.Numeric := fun field => by cases field <;> exact ⟨_, rfl⟩
  have hleast : IsLeast {steps | SetAt stops steps} 2 := by
    simp [stops, IsLeast, mem_lowerBounds, SetAt]
    omega
  obtain ⟨graph, hgraph⟩ : ∃ graph, Graph.build engine.weigh Coefficients.sample = .ok graph :=
    ⟨_, rfl⟩
  obtain ⟨hcut, -, hfinished⟩ := annealWithin_stops hends hseed graph stops
  obtain ⟨hending, hlength⟩ := hfinished (doubles_decides _ _ _) hnumeric rfl ⟨5, rfl⟩
  obtain ⟨hreports, hcancelled⟩ := hcut 2 (by decide) (by rw [hlength]; decide) hleast
  exact ⟨hends, hseed, graph, hgraph, hending, hlength, hreports, hcancelled⟩

/-- An engine for examples: exact weights, and a change of energy is accepted if it is no
    increase. -/
def Engine.downhill : Engine ℚ Twister Float where
  weigh := Coefficients.readExact
  accept _ _ delta := .ok (decide (delta ≤ 0))
  source := Twister.source
  memory := .gibibyte

end Annealing
