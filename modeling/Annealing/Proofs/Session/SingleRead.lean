import Annealing.Proofs.Anneal.Course
import Annealing.Proofs.Anneal.Faults
import Annealing.Proofs.Delivery.Order
import Annealing.Proofs.Session.Energies

/-! # A single anneal and a single read

`solve` hands the reports of an anneal to a callback, one by one and through a queue; `sample` with
one read keeps the last of them.  From the same stream of draws, or from one seed, this is the same
anneal: the last call of the callback is that of the read, and what it leaves is the result, so that
a callback which changes nothing makes the result of the one the state of the other.

Only `solve` writes its parameters down before it starts, and fails if one of them is too long.

* `anneal_uncut`, `anneal_of_limit` — the anneal does not depend on stop signals that are set too
  late, nor on a limit that it does not reach.
* `sample_one`, `solve_eq_handOver`, `handOver_of_run` — what the two entry points and the queue
  make of it.
* `tells_lastRead`, `Ready.exists_tells` — the read that is kept, against the calls and the result
  of the delivery.
* `solve_agrees_sample` — the two answers side by side.
* `exists_solve_ne_sample` — a callback and parameters that keep them apart.
-/

namespace Annealing

variable {ω σ ρ : Type}

/-! ## One anneal -/

section Anneals

variable [OfNat ω 0] [Add ω] [Neg ω] {engine : Engine ω σ ρ} {params : Params} {limit n : Nat}
  {seed? : Option Int} {stream start : σ}

/-- From the stream of a seed or the one that is there, an anneal is that of the plan. -/
theorem Engine.annealWithin_eq (hstart : engine.source.streamFor seed? stream = .ok start)
    (limit : Nat) (graph : Graph ω) (stops : List Signal) :
    engine.annealWithin limit params seed? graph stops stream =
      (params.plan engine.accept).anneal engine.source graph stops limit start := by
  rw [annealWithin, hstart]

/-- An anneal goes on as without stop signals if none is set while the schedule goes on. -/
theorem Params.anneal_uncut (hends : params.schedule.countSteps limit = .ok (some n))
    {stops : List Signal} (hstops : ∀ k < n, ¬ SetAt stops k) (graph : Graph ω) :
    (params.plan engine.accept).anneal engine.source graph stops limit start =
      (params.plan engine.accept).anneal engine.source graph [] limit start :=
  have hcount : (params.plan engine.accept).countSteps limit = .ok (some n) := hends
  Plan.runFrom_uncut engine.source graph hcount fun k _ hk _ => hstops k hk

/-- An anneal does not depend on a limit that its schedule does not reach. -/
theorem Params.anneal_of_limit (hends : params.schedule.countSteps limit = .ok (some n))
    {more : Nat} (hmore : limit ≤ more) (stops : List Signal) (graph : Graph ω) :
    (params.plan engine.accept).anneal engine.source graph stops more start =
      (params.plan engine.accept).anneal engine.source graph stops limit start :=
  have hcount : (params.plan engine.accept).countSteps limit = .ok (some n) := hends
  Plan.runFrom_more engine.source graph hcount hmore

/-- A whole anneal is reported step by step and its last report once more, or it fails. -/
theorem Params.anneal_eq_reports (engine : Engine ω σ ρ) (start : σ)
    (hends : params.schedule.countSteps limit = .ok (some n)) (graph : Graph ω) :
    ∃ progress : List (Report ω Temperature), (∀ report ∈ progress, report.finished = false) ∧
      ∃ final, ((∃ last : Report ω Temperature, last.finished = true ∧
            last.step = progress.length ∧
            (params.plan engine.accept).anneal engine.source graph [] limit start =
              ⟨progress ++ [last], .finished, final⟩) ∨
          ∃ fault, (params.plan engine.accept).anneal engine.source graph [] limit start =
            ⟨progress, .failed fault, final⟩) := by
  set plan := params.plan engine.accept
  set walk := plan.start engine.source graph start
  have hcount : plan.countFrom limit walk.temperature walk.step = .ok (some n) := hends
  obtain ⟨progress, last, hcools, hrun⟩ := Plan.exists_cools engine.source graph hcount
  refine ⟨progress, hcools.unfinished, ?_⟩
  cases hrun with
  | inl hfinished =>
    have hstep : last.step = progress.length := hcools.step_eq.trans (Nat.zero_add _)
    exact ⟨last.stream, .inl ⟨last.report true, rfl, hstep, hfinished.2.2⟩⟩
  | inr hfailed =>
    obtain ⟨-, fault, stream, -, hrun⟩ := hfailed
    exact ⟨stream, .inr ⟨fault, hrun⟩⟩

end Anneals

/-! ## Two entry points -/

/-- A read tells what a delivery ended with: the last call of the callback, which leaves the result,
    and how many calls there were. -/
structure Delivery.Tells (callback : Callback) (delivery : Delivery) (row : Sample ω) : Prop where
  last_call : ∃ earlier left, delivery.calls = earlier ++ [(row.state, row.temperature)] ∧
    callback earlier.reverse (row.state, row.temperature) = .ok left ∧ delivery.result = .ok left
  calls_length : delivery.calls.length = row.steps + 1

/-- If the callback changes nothing, the state of the read is the result. -/
theorem Delivery.Tells.result_eq {callback : Callback} {delivery : Delivery} {row : Sample ω}
    (htells : delivery.Tells callback row) (hspares : callback.Spares) :
    delivery.result = .ok row.state.assignment := by
  obtain ⟨earlier, left, -, hleft, hresult⟩ := htells.last_call
  rw [hresult, hspares _ _ _ hleft]

namespace Solver

section Entries

variable [OfNat ω 0] [Add ω] [Neg ω] {engine : Engine ω σ ρ} {solver : Solver} {graph : Graph ω}
  {n : Nat} {stream start : σ} {callback : Callback} {stops : List Signal}

omit [OfNat ω 0] [Add ω] [Neg ω] in
theorem opening_of_isWritable (hwritable : solver.params.isWritable = true) (graph : Graph ω) :
    ∃ text, solver.opening graph = .ok text := by
  rw [opening, Params.display, if_pos hwritable]
  exact ⟨_, rfl⟩

/-- Nothing is annealed if the parameters cannot be written. -/
theorem solve_of_not_isWritable (hgraph : solver.graph engine = .ok graph)
    (hlengthy : solver.params.isWritable = false) :
    solver.solve engine callback stops stream = (.error .unusable, stream) := by
  have hopening : solver.opening graph = .error .unusable := by
    rw [opening, Params.display, hlengthy]
    rfl
  simp only [solve, hgraph, hopening]

omit [OfNat ω 0] [Add ω] [Neg ω] in
/-- There is room for a single read in every memory. -/
theorem readCount_one (memory : Storage) : readCount memory (.int 1) = .ok 1 := by
  have hcount : readCount memory (.int 1) =
      if memory.bytes < 1 * Value.itemRoom then .error .exhausted else .ok 1 := rfl
  have hroom : ¬ memory.bytes < 1 * Value.itemRoom := not_lt.mpr memory.itemRoom_le
  rw [hcount, if_neg hroom]

/-- A single read is the last report of an anneal. -/
theorem sample_one (hgraph : solver.graph engine = .ok graph)
    (hstart : engine.source.streamFor solver.seed? stream = .ok start) :
    (solver.sample engine (.int 1) stream).1 =
      (lastRead graph (solver.anneal engine graph [] start)).map fun row => [row] := by
  have hcount : readCount engine.memory (.int 1) = .ok 1 := readCount_one engine.memory
  rw [sample, hgraph]
  simp only [hstart, hcount, reads]
  cases lastRead graph (solver.anneal engine graph [] start) <;> rfl

/-- Signals that are not set while the schedule goes on leave no trace in a delivery. -/
theorem solve_eq_handOver (hgraph : solver.graph engine = .ok graph)
    (hwritable : solver.params.isWritable = true)
    (hends : solver.params.schedule.countSteps stepLimit = .ok (some n))
    (hstart : engine.source.streamFor solver.seed? stream = .ok start)
    (hstops : ∀ k < n, ¬ SetAt stops k) :
    let run := solver.anneal engine graph [] start
    (solver.solve engine callback stops stream).1 =
      .ok (handOver graph callback run.ending [] run.reports) := by
  intro run
  have hrun : engine.anneal solver.params solver.seed? graph stops stream = run := by
    rw [Engine.anneal, Engine.annealWithin_eq hstart, Params.anneal_uncut hends hstops]
    rfl
  obtain ⟨text, hopening⟩ := opening_of_isWritable hwritable graph
  simp only [solve, hgraph, hopening, hends, hrun]

/-- The delivery is the same through the queue, in whatever order producer and consumer take their
    steps. -/
theorem handOver_of_run (hends : solver.params.schedule.countSteps stepLimit = .ok (some n))
    (hstart : engine.source.streamFor solver.seed? stream = .ok start)
    (hpasses : callback.Passes []
      ((solver.anneal engine graph [] start).reports.map (callOf graph)))
    {stop? : Option Bool} (hstop : stop? ≠ some true) {schedule : List Actor} {relay : Relay ω σ}
    {result : Except Fault Assignment} (hcaller : Actor.caller ∉ schedule)
    (hrun : Relay.run engine solver graph callback schedule (.initial stop? stream) = some relay)
    (hfuture : relay.future? = some result) :
    let run := solver.anneal engine graph [] start
    handOver graph callback run.ending [] run.reports = ⟨relay.calls.reverse, result⟩ := by
  intro run
  -- The schedule may be longer than the limit on the number of steps, so a greater one is needed.
  have hstops : ∀ k < n, ¬ SetAt (steadySignals stop?) k := by
    intro k _ hset
    rw [← any_iff_setAt, any_steadySignals, decide_eq_true_eq] at hset
    exact hstop hset
  have hanneal : engine.annealWithin (max stepLimit schedule.length) solver.params solver.seed?
      graph (steadySignals stop?) stream = run := by
    rw [Engine.annealWithin_eq hstart, Params.anneal_of_limit hends (le_max_left _ _),
      Params.anneal_uncut hends hstops]
    rfl
  obtain ⟨-, hattend⟩ := Relay.forecast_run hcaller (fun h => absurd h Bool.false_ne_true) hrun
    hfuture (le_max_right stepLimit schedule.length)
  change attend graph callback [] (engine.annealWithin (max stepLimit schedule.length)
    solver.params solver.seed? graph (steadySignals stop?) stream).messages = _ at hattend
  rw [hanneal] at hattend
  have hmarks : run.MarksEnd := Engine.annealWithin_marksEnd _ _ _ _ _
  obtain ⟨hcalls, hdelivery, -⟩ := attend_run hmarks hpasses hattend
  rw [hdelivery, ← hcalls]

/-- An anneal that has trials to make and cannot count them fails at once. -/
theorem anneal_of_trials_error (hnodes : 0 < graph.size)
    {fault : Fault} (htrials : trialCount solver.params.sweepsPerTemperature = .error fault)
    (hhot : solver.params.schedule.hot solver.params.schedule.initial = .ok true) (start : σ) :
    ∃ after, solver.anneal engine graph [] start = ⟨[], .failed fault, after⟩ := by
  obtain ⟨limit, hlimit⟩ : ∃ limit, stepLimit = limit + 1 :=
    Nat.exists_eq_succ_of_ne_zero (by decide)
  set plan := solver.params.plan engine.accept
  have hstate : 0 < (plan.start engine.source graph start).state.size :=
    (Plan.start_binary plan engine.source graph start).size_eq ▸ hnodes
  have hplan : plan.trials = .error fault := htrials
  obtain ⟨after, hstep⟩ := Plan.coolingStep_of_trials_error engine.source graph hstate hplan
  have hanneal := Plan.anneal_of_coolingStep_error hhot hstep limit
  rw [← hlimit] at hanneal
  exact ⟨after, hanneal⟩

/-- An anneal that fails at once fails a read, and it fails `solve` in its future, if there is
    one. -/
theorem fails_of_anneal (hgraph : solver.graph engine = .ok graph)
    (hstart : engine.source.streamFor solver.seed? stream = .ok start) {fault : Fault} {after : σ}
    (hanneal : solver.anneal engine graph [] start = ⟨[], .failed fault, after⟩) :
    (solver.sample engine (.int 1) stream).1 = .error fault ∧
      ∀ callback steps?, solver.params.isWritable = true →
        solver.params.schedule.countSteps stepLimit = .ok steps? →
          ∃ delivery, (solver.solve engine callback [] stream).1 = .ok delivery ∧
            delivery.result = .error fault := by
  constructor
  · rw [sample_one hgraph hstart, hanneal]
    rfl
  · intro callback steps? hwritable hsteps
    obtain ⟨text, hopening⟩ := opening_of_isWritable hwritable graph
    have hrun : engine.anneal solver.params solver.seed? graph [] stream =
        ⟨[], .failed fault, after⟩ := by
      rw [Engine.anneal, Engine.annealWithin_eq hstart]
      exact hanneal
    refine ⟨⟨[], .error fault⟩, ?_, rfl⟩
    simp only [solve, hgraph, hopening, hsteps, hrun]
    rfl

/-- The read that is kept of an anneal tells what its delivery ends with, and where the one fails so
    does the other. -/
theorem tells_lastRead (hends : solver.params.schedule.countSteps stepLimit = .ok (some n))
    (hpasses : callback.Passes []
      ((solver.anneal engine graph [] start).reports.map (callOf graph))) :
    let run := solver.anneal engine graph [] start
    let delivery := handOver graph callback run.ending [] run.reports
    (∃ row, lastRead graph run = .ok row ∧ delivery.Tells callback row) ∨
      ∃ fault, run.ending = .failed fault ∧ lastRead graph run = .error fault ∧
        delivery.result = .error fault := by
  intro run delivery
  obtain ⟨progress, hprogress, final, hrun⟩ := Params.anneal_eq_reports engine start hends graph
  have hpasses : callback.Passes [] (run.reports.map (callOf graph)) := hpasses
  cases hrun with
  | inl hfinished =>
    obtain ⟨last, hlast, hstep, hrun⟩ := hfinished
    have hrun : run = ⟨progress ++ [last], .finished, final⟩ := hrun
    rw [hrun] at hpasses
    have hdelivery : delivery = ⟨(progress ++ [last]).map (callOf graph),
        callback (progress.map (callOf graph)).reverse (callOf graph last)⟩ := by
      simp only [delivery, hrun]
      exact handOver_finished hprogress hlast hpasses .finished
    rw [List.map_append] at hpasses
    obtain ⟨-, ⟨left, hleft⟩, -⟩ := hpasses.append
    rw [List.append_nil] at hleft
    refine .inl ⟨⟨(callOf graph last).1, last.energy, last.temperature.toValue, last.step⟩, ?_, ?_⟩
    · rw [hrun]
      simp [lastRead, callOf]
    · rw [hdelivery]
      exact ⟨⟨progress.map (callOf graph), left, by simp [callOf], hleft, hleft⟩, by simp [hstep]⟩
  | inr hfailed =>
    obtain ⟨fault, hrun⟩ := hfailed
    have hrun : run = ⟨progress, .failed fault, final⟩ := hrun
    rw [hrun] at hpasses
    refine .inr ⟨fault, by rw [hrun], ?_, ?_⟩
    · rw [hrun]
      simp [lastRead, faultOf]
    · simp only [delivery, hrun]
      rw [handOver_unfinished hprogress hpasses, faultOf]

/-- If a solver is ready, each anneal comes to a read, and to a delivery that it tells of. -/
theorem Ready.exists_tells (hready : solver.Ready engine)
    (hpasses : callback.Passes []
      ((solver.anneal engine graph [] start).reports.map (callOf graph))) :
    let run := solver.anneal engine graph [] start
    ∃ row, lastRead graph run = .ok row ∧
      (handOver graph callback run.ending [] run.reports).Tells callback row := by
  intro run
  obtain ⟨n, hends⟩ := hready.ends
  obtain ⟨kept, hkept⟩ := hready.exists_lastRead graph start
  rcases tells_lastRead hends hpasses with htold | ⟨fault, -, hread, -⟩
  · exact htold
  · rw [hkept] at hread
    cases hread

end Entries

end Solver

/-- Let the schedule of a solver end after `n` steps, let its parameters be such that they can be
    written, and start `solve` and `sample` from the same stream of draws, or both from the seed of
    the solver.  Let no stop signal be set while the schedule goes on, and let the callback raise no
    fault.  Then what `solve` delivers is what comes out of the queue, however producer and consumer
    interleave.  The single row of `sample` holds the solution and the temperature of the last call,
    and one step less than there were calls.  What the last call leaves is the result, which is the
    solution if the callback changes nothing; the energy of the row is the one that any session of
    the solver answers for the solution.  If the anneal fails, both fail with the same fault; with
    parameters that are accepted, a whole number of sweeps and an engine that decides, it does
    not. -/
theorem Solver.solve_agrees_sample [DivisionRing ω] [NeZero (2 : ω)] {engine : Engine ω σ ρ}
    {solver : Solver} {graph : Graph ω} (hgraph : solver.graph engine = .ok graph)
    (hwritable : solver.params.isWritable = true) {n : Nat}
    (hends : solver.params.schedule.countSteps stepLimit = .ok (some n)) {stream again start : σ}
    (hstart : engine.source.streamFor solver.seed? stream = .ok start)
    (hagain : engine.source.streamFor solver.seed? again = .ok start) (callback : Callback)
    (hpasses : callback.Passes []
      ((solver.anneal engine graph [] start).reports.map (callOf graph)))
    {stops : List Signal} (hstops : ∀ k < n, ¬ SetAt stops k) :
    ∃ delivery, (solver.solve engine callback stops stream).1 = .ok delivery ∧
      (∀ stop? schedule relay result, stop? ≠ some true → Actor.caller ∉ schedule →
        Relay.run engine solver graph callback schedule (.initial stop? stream) = some relay →
        relay.future? = some result → delivery = ⟨relay.calls.reverse, result⟩) ∧
      ((∃ row, (solver.sample engine (.int 1) again).1 = .ok [row] ∧
          delivery.Tells callback row ∧
          (callback.Spares → delivery.result = .ok row.state.assignment) ∧
          ∀ (coefficients : Coefficients) (kept : σ) (requests : List Request),
            (((Session.fresh coefficients solver kept).after engine requests).answer engine
              (.energy row.state.assignment)).1 = .ok (.energy row.energy)) ∨
        ∃ fault, (solver.sample engine (.int 1) again).1 = .error fault ∧
          delivery.result = .error fault) ∧
      (engine.Decides → solver.params.validate = .ok solver.params →
        (∃ trials, trialCount solver.params.sweepsPerTemperature = .ok trials) →
        ∃ left, delivery.result = .ok left) := by
  have hsample := sample_one hgraph hagain
  have htells := tells_lastRead hends hpasses
  refine ⟨_, solve_eq_handOver hgraph hwritable hends hstart hstops, ?_, ?_, ?_⟩
  · intro stop? schedule relay result hstop hcaller hrun hfuture
    exact handOver_of_run hends hstart hpasses hstop hcaller hrun hfuture
  · cases htells with
    | inl htold =>
      obtain ⟨row, hread, htells⟩ := htold
      rw [hread] at hsample
      refine .inl ⟨row, hsample, htells, htells.result_eq, fun coefficients kept requests => ?_⟩
      -- The row is a state of the graph, and its assignment leads back to that state.
      obtain ⟨state, hbinary, hassignment, henergy⟩ :=
        isRead_sample hgraph hsample row (List.mem_singleton.mpr rfl)
      have hstate : graph.toState row.state.assignment = .ok state := by
        rw [hassignment]
        exact Graph.toState_toAssignment (Graph.wellFormed_of_build hgraph).ascending hbinary
      rw [henergy]
      exact Session.answer_energy hgraph
        ((Session.serves_fresh coefficients kept).after hgraph requests)
        (soundEntries_assignment row.state) hstate hbinary
    | inr hfails =>
      obtain ⟨fault, -, hread, hresult⟩ := hfails
      rw [hread] at hsample
      exact .inr ⟨fault, hsample, hresult⟩
  · intro hdecides hvalid hwhole
    have hseeded : ∀ stream, ∃ start, engine.source.streamFor solver.seed? stream = .ok start := by
      intro other
      cases hseed : solver.seed? with
      | none => exact ⟨other, rfl⟩
      | some seed => exact ⟨start, by rw [← hstart, hseed]; rfl⟩
    have hready : solver.Ready engine :=
      ⟨hdecides, Params.numeric_of_validate hvalid, hvalid, hwhole, ⟨n, hends⟩, hseeded⟩
    obtain ⟨row, -, htold⟩ := hready.exists_tells hpasses
    obtain ⟨earlier, left, -, -, hresult⟩ := htold.last_call
    exact ⟨left, hresult⟩

/-- Two callers of a seeded solver, each with a stream of its own. -/
theorem Solver.solve_agrees_sample_sampler :
    Solver.sampler.graph Engine.downhill = .ok Graph.sample ∧
      Solver.sampler.params.isWritable = true ∧
      Solver.sampler.params.schedule.countSteps stepLimit = .ok (some 4) ∧
      ∃ delivery row,
        (Solver.sampler.solve Engine.downhill silent [fun steps => 4 ≤ steps]
          (Twister.seeded 7)).1 = .ok delivery ∧
        (Solver.sampler.sample Engine.downhill (.int 1) (Twister.seeded 0)).1 = .ok [row] ∧
        delivery.Tells silent row ∧ delivery.result = .ok row.state.assignment ∧
        (((Session.fresh Coefficients.sample Solver.sampler (Twister.seeded 3)).after
          Engine.downhill [.put (.text "9") (.int 1)]).answer Engine.downhill
            (.energy row.state.assignment)).1 = .ok (.energy row.energy) := by
  have hgraph : Solver.sampler.graph Engine.downhill = .ok Graph.sample := Graph.build_sample
  have hwritable : Solver.sampler.params.isWritable = true := by decide +kernel
  have hends : Solver.sampler.params.schedule.countSteps stepLimit = .ok (some 4) := rfl
  have hseeded : ∀ stream, Engine.downhill.source.streamFor Solver.sampler.seed? stream =
      .ok (Twister.seeded 1) := fun _ => rfl
  have hstops : ∀ k < 4, ¬ SetAt [fun steps => 4 ≤ steps] k := by
    intro k hk hset
    simp [SetAt] at hset
    omega
  have hdelivers := solve_agrees_sample hgraph hwritable hends (hseeded (Twister.seeded 7))
    (hseeded (Twister.seeded 0)) silent
  -- Nothing of the anneal has to be computed.
  generalize Solver.sampler.anneal Engine.downhill Graph.sample [] (Twister.seeded 1) = run
    at hdelivers
  obtain ⟨delivery, hsolve, -, hagrees, hsucceeds⟩ := hdelivers (silent_passes _ _) hstops
  obtain ⟨left, hresult⟩ := hsucceeds (fun _ _ _ _ _ => ⟨_, rfl⟩) rfl ⟨5, rfl⟩
  rcases hagrees with ⟨row, hsample, htells, hspared, henergy⟩ | ⟨fault, -, hfails⟩
  · exact ⟨hgraph, hwritable, hends, delivery, row, hsolve, hsample, htells,
      hspared silent_spares, henergy _ _ _⟩
  · rw [hresult] at hfails
    cases hfails

/-! ## Two answers apart -/

namespace Solver

section Apart

variable [AddCommGroup ω] {engine : Engine ω σ ρ} {solver : Solver} {graph : Graph ω}

/-- A callback that empties its assignments takes the result away, and leaves the read as it is. -/
theorem solve_erasing (hgraph : solver.graph engine = .ok graph) (hnodes : 0 < graph.size)
    (hwritable : solver.params.isWritable = true) (hready : solver.Ready engine) (stream : σ) :
    ∃ delivery row, (solver.solve engine .erasing [] stream).1 = .ok delivery ∧
      (solver.sample engine (.int 1) stream).1 = .ok [row] ∧
      delivery.result = .ok [] ∧ row.state.assignment ≠ [] := by
  obtain ⟨n, hends⟩ := hready.ends
  obtain ⟨start, hstart⟩ := hready.seeded stream
  have hpasses : Callback.erasing.Passes []
      ((solver.anneal engine graph [] start).reports.map (callOf graph)) :=
    Callback.erasing_passes _ _
  have hsolve : (solver.solve engine .erasing [] stream).1 = .ok _ :=
    solve_eq_handOver hgraph hwritable hends hstart fun k _ => Plan.not_setAt_nil k
  have hsample := sample_one hgraph hstart
  obtain ⟨row, hread, htells⟩ := hready.exists_tells hpasses
  rw [hread] at hsample
  refine ⟨_, row, hsolve, hsample, ?_, fun hempty => ?_⟩
  · obtain ⟨earlier, left, -, hleft, hresult⟩ := htells.last_call
    cases hleft
    exact hresult
  · obtain ⟨state, hbinary, hstate, -⟩ :=
      isRead_sample hgraph hsample row (List.mem_singleton.mpr rfl)
    have hlength : row.state.length = graph.size := by
      simp [hstate, Graph.toAssignment, Graph.size, hbinary.size_eq]
    rw [List.map_eq_nil_iff.mp hempty] at hlength
    exact absurd hlength hnodes.ne

end Apart

end Solver

/-- A number of sweeps with too many digits to be written, though there is nothing to sweep for. -/
def Params.lengthy : Params :=
  ⟨.float 1, .float 0.5, .float 1, .int (.ofNat (Nat.pow 10 5000))⟩

/-- One sweep and a half at each temperature. -/
def Params.fractional : Params :=
  ⟨.float 5, .float 0.5, .float 1, .float 1.5⟩

theorem Params.lengthy_validate : lengthy.validate = .ok lengthy := by
  have hregular : lengthy.Regular (.float 1) (.float 1) 0.5 := regular_of_float rfl
  have hmany : (Number.int (.ofNat (Nat.pow 10 5000))).lt (.int 1) = false := by decide +kernel
  have hlt : lengthy.sweepsPerTemperature.lt? (.int 1) = .ok false := by
    rw [lengthy, Value.lt?_of_number rfl rfl, hmany]
  refine hregular.validate_eq ?_
  rw [Field.admits, hlt]
  rfl

theorem Params.lengthy_isWritable : lengthy.isWritable = false := by
  decide +kernel

namespace Solver

theorem ready_smallWith {params : Params} (hvalid : params.validate = .ok params)
    (hwhole : ∃ trials, trialCount params.sweepsPerTemperature = .ok trials)
    (hends : ∃ n, params.schedule.countSteps stepLimit = .ok (some n)) :
    (smallWith params).Ready .small :=
  ⟨fun _ _ _ _ _ => ⟨_, rfl⟩, Params.numeric_of_validate hvalid, hvalid, hwhole, hends,
    fun _ => ⟨1, rfl⟩⟩

/-- Three ways in which `solve` and `sample` answer differently, or not at all.  A callback that
    empties its assignments takes the result away.  Accepted parameters that cannot be written fail
    `solve` only.  With a broken number of sweeps, which is accepted too, both fail. -/
theorem exists_solve_ne_sample :
    (small.graph .small = .ok .sample ∧
      small.params.schedule.countSteps stepLimit = .ok (some 1) ∧
      (∀ calls, Callback.erasing.Passes [] calls) ∧
      ∃ delivery row, (small.solve .small .erasing [] 0).1 = .ok delivery ∧
        (small.sample .small (.int 1) 0).1 = .ok [row] ∧
        delivery.result = .ok [] ∧ row.state.assignment ≠ []) ∧
    (Params.lengthy.validate = .ok .lengthy ∧
      Params.lengthy.schedule.countSteps stepLimit = .ok (some 0) ∧
      ((smallWith .lengthy).solve .small silent [] 0).1 = .error .unusable ∧
      ∃ row, ((smallWith .lengthy).sample .small (.int 1) 0).1 = .ok [row]) ∧
    Params.fractional.validate = .ok .fractional ∧
      Params.fractional.schedule.countSteps stepLimit = .ok (some 3) ∧
      (∃ delivery, ((smallWith .fractional).solve .small silent [] 0).1 = .ok delivery ∧
        delivery.result = .error .wrongKind) ∧
      ((smallWith .fractional).sample .small (.int 1) 0).1 = .error .wrongKind := by
  have hstart (params : Params) :
      Engine.small.source.streamFor (smallWith params).seed? 0 = .ok 1 := rfl
  refine ⟨⟨Graph.build_sample, rfl, Callback.erasing_passes [], ?_⟩,
    ⟨Params.lengthy_validate, rfl, ?_, ?_⟩, rfl, rfl, ?_⟩
  · have hwritable : small.params.isWritable = true := by decide +kernel
    exact solve_erasing (graph_smallWith small.params) (by decide) hwritable
      (ready_smallWith rfl ⟨3, rfl⟩ ⟨1, rfl⟩) 0
  · exact congrArg Prod.fst
      (solve_of_not_isWritable (graph_smallWith _) Params.lengthy_isWritable)
  · have hready : (smallWith .lengthy).Ready .small :=
      ready_smallWith Params.lengthy_validate ⟨_, rfl⟩ ⟨0, rfl⟩
    obtain ⟨row, hread⟩ := hready.exists_lastRead .sample 1
    refine ⟨row, ?_⟩
    rw [sample_one (graph_smallWith _) (hstart _), hread]
    rfl
  · have hwritable : (smallWith .fractional).params.isWritable = true := by decide +kernel
    have htrials : trialCount Params.fractional.sweepsPerTemperature = .error .wrongKind := rfl
    obtain ⟨after, hanneal⟩ : ∃ after, (smallWith .fractional).anneal .small .sample [] 1 =
        ⟨[], .failed .wrongKind, after⟩ := anneal_of_trials_error (by decide) htrials rfl 1
    obtain ⟨hsample, hfuture⟩ := fails_of_anneal (graph_smallWith .fractional) (hstart _) hanneal
    exact ⟨hfuture silent _ hwritable rfl, hsample⟩

end Solver

end Annealing
