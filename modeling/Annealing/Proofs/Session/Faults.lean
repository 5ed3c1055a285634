import Annealing.Proofs.Params.Workable
import Annealing.Proofs.Session.SingleRead

/-! # Faults after construction

A solver that is set up, and whose graph is built, may still raise faults: ready parameters are
compared with the bounds of their domains and not rounded, converted or written down.  Where the
parameters work no anneal fails, and where they do not every one does.  Apart from that, `solve`
fails where the parameters are too long to be written.

* `exists_tells_of_workable`, `sample_of_workable`, `fails_of_not_workable` — the two cases, for
  anneals of doubles.
* `faults_iff_not_workable` — both, for whatever a solver is set up from.
* `exists_create_fails` — solvers that are set up and fail, in the caller of `solve` or in its
  future.
-/

namespace Annealing

variable {σ : Type}

/-- The stream of a seed in range, or else the one that is there. -/
theorem Source.exists_streamFor {ρ : Type} (source : Source σ ρ) {seed? : Option Int}
    (hseed : ∀ seed, seed? = some seed → 0 ≤ seed ∧ seed < Nat.pow 2 32) (stream : σ) :
    ∃ start, source.streamFor seed? stream = .ok start := by
  cases seed? with
  | none => exact ⟨stream, rfl⟩
  | some seed =>
    obtain ⟨hlow, hhigh⟩ := hseed seed rfl
    refine ⟨source.seeded (UInt32.ofNat seed.toNat), ?_⟩
    simp only [streamFor, seeded?, hlow, hhigh, decide_true, Bool.and_self, if_true]

namespace Solver

/-- A solver that is set up keeps the variables of its map and the parameters that are read. -/
theorem create_eq_ok_iff {coefficients : Coefficients} {supplied : Supplied} {seed? : Option Int}
    {warnings : List Warning} {solver : Solver} :
    create coefficients supplied seed? = (warnings, .ok solver) ↔
      ∃ vars params, coefficients.vars = .ok vars ∧ Params.read supplied = ⟨warnings, .ok params⟩ ∧
        solver = ⟨coefficients, vars, params, seed?⟩ := by
  unfold create
  cases coefficients.vars with
  | error fault => simp
  | ok vars =>
    obtain ⟨said, result⟩ := Params.read supplied
    cases result with
    | error fault => simp [Except.map]
    | ok params => simp [Except.map, eq_comm]

theorem create_eq_ok {coefficients : Coefficients} {supplied : Supplied} {seed? : Option Int}
    {solver : Solver} (hcreate : (create coefficients supplied seed?).2 = .ok solver) :
    solver.seed? = seed? ∧ (Params.read supplied).result = .ok solver.params := by
  obtain ⟨vars, params, -, hread, rfl⟩ := create_eq_ok_iff.mp (Prod.ext rfl hcreate)
  exact ⟨rfl, congrArg Reading.result hread⟩

section Doubles

variable {exp : Float → Float} {source : Source σ Float} {memory : Storage} {solver : Solver}
  {graph : Graph Float} {stream start : σ}

/-- With parameters that work and a schedule that ends, each anneal comes to a read, and to a
    delivery that it tells of. -/
theorem exists_tells_of_workable (hvalid : solver.params.validate = .ok solver.params)
    (hworkable : solver.params.Workable graph.size) {n : Nat}
    (hends : solver.params.schedule.countSteps stepLimit = .ok (some n)) (start : σ) :
    let run := solver.anneal (Engine.doubles exp source memory) graph [] start
    ∃ row, lastRead graph run = .ok row ∧
      (handOver graph silent run.ending [] run.reports).Tells silent row := by
  intro run
  obtain ⟨initial, final, factor, hregular⟩ :=
    Params.exists_regular (Params.numeric_of_validate hvalid) hvalid
  have hpasses : silent.Passes [] (run.reports.map (callOf graph)) := silent_passes _ _
  rcases tells_lastRead hends hpasses with htold | ⟨fault, hfailed, -, -⟩
  · exact htold
  · exact absurd hfailed (hregular.not_failed_of_workable hworkable [] stepLimit start fault)

/-- With parameters that work and a schedule that ends, there is a read.  If the parameters can be
    written too, the state of the read is the result. -/
theorem sample_of_workable (hvalid : solver.params.validate = .ok solver.params)
    (hgraph : solver.graph (Engine.doubles exp source memory) = .ok graph)
    (hworkable : solver.params.Workable graph.size)
    (hstart : source.streamFor solver.seed? stream = .ok start) {n : Nat}
    (hends : solver.params.schedule.countSteps stepLimit = .ok (some n)) :
    let engine := Engine.doubles exp source memory
    ∃ row, (solver.sample engine (.int 1) stream).1 = .ok [row] ∧
      (solver.params.isWritable = true →
        ∃ delivery, (solver.solve engine silent [] stream).1 = .ok delivery ∧
          delivery.result = .ok row.state.assignment) := by
  intro engine
  obtain ⟨row, hread, htells⟩ := exists_tells_of_workable hvalid hworkable hends start
  have hsample : (solver.sample engine (.int 1) stream).1 =
      (lastRead graph (solver.anneal engine graph [] start)).map fun row => [row] :=
    sample_one hgraph hstart
  rw [hread] at hsample
  refine ⟨row, hsample, fun hwritable => ⟨_, ?_, htells.result_eq silent_spares⟩⟩
  exact solve_eq_handOver hgraph hwritable hends hstart fun k _ => Plan.not_setAt_nil k

/-- With accepted parameters that do not work both fail, provided that there is something to be said
    of them.  Where the first temperature cannot be rounded, `solve` does so at once, while it
    counts the steps, else in its future. -/
theorem fails_of_not_workable (hvalid : solver.params.validate = .ok solver.params)
    (hgraph : solver.graph (Engine.doubles exp source memory) = .ok graph)
    (hbroken : ¬ solver.params.Workable graph.size)
    (hstart : source.streamFor solver.seed? stream = .ok start) :
    let engine := Engine.doubles exp source memory
    let solved := (solver.solve engine silent [] stream).1
    let initial := solver.params.initialTemperature.toFloat?
    (∃ fault, (solver.sample engine (.int 1) stream).1 = .error fault ∧
      (fault = .wrongKind ∧ trialCount solver.params.sweepsPerTemperature = .error .wrongKind ∨
        fault = .overflow ∧ initial = .error .overflow)) ∧
    (solver.params.isWritable = true →
      initial = .error .overflow ∧ solved = .error .overflow ∨
      (∃ x, initial = .ok x) ∧ ∃ delivery, solved = .ok delivery ∧
        delivery.result = .error .wrongKind) := by
  intro engine solved initial
  obtain ⟨first, final, factor, hregular⟩ :=
    Params.exists_regular (Params.numeric_of_validate hvalid) hvalid
  have hinitial : initial = first.toFloat? := Value.toFloat?_of_number hregular.initial_eq
  obtain ⟨hhot, hcause⟩ := hregular.cases_of_not_workable hvalid hbroken
  obtain ⟨limit, hlimit⟩ : ∃ limit, stepLimit = limit + 1 :=
    Nat.exists_eq_succ_of_ne_zero (by decide)
  obtain ⟨fault, after, hrun, hfault⟩ :=
    hregular.exists_failed_of_not_workable exp source memory hvalid hbroken limit start
  rw [← hlimit] at hrun
  have hanneal : solver.anneal engine graph [] start = ⟨[], .failed fault, after⟩ := hrun
  obtain ⟨hsample, hfuture⟩ := fails_of_anneal hgraph hstart hanneal
  refine ⟨⟨fault, hsample, by rwa [hinitial]⟩, fun hwritable => ?_⟩
  cases hcause with
  | inl hrounded =>
    have hsteps := hregular.countSteps_error hhot hrounded limit
    rw [← hlimit] at hsteps
    obtain ⟨text, hopening⟩ := opening_of_isWritable hwritable graph
    refine .inl ⟨hinitial.trans hrounded, ?_⟩
    simp only [solved, engine, solve, hgraph, hopening, hsteps]
  | inr hcounted =>
    -- Counting goes through, and the fault of the anneal is that of its number of trials.
    obtain ⟨⟨x, hx⟩, -, -⟩ := hcounted
    obtain ⟨steps?, hsteps⟩ := hregular.exists_countSteps
      (fun _ => ⟨_, first, x, rfl, hregular.initial_eq, hx⟩) stepLimit
    have hkind : fault = .wrongKind := by
      cases hfault with
      | inl htrials => exact htrials.1
      | inr hrounded =>
        rw [hx] at hrounded
        cases hrounded.2
    exact .inr ⟨⟨x, hinitial.trans hx⟩, hkind ▸ hfuture silent steps? hwritable hsteps⟩

end Doubles

/-- A solver that is set up, with a seed in range, and whose graph is built.  Parameters that it was
    given as a map work and can be written.  Where they cannot be written, `solve` fails.  Where
    they work, neither counting the steps nor any anneal fails, and if the schedule ends, then a
    single read comes to a solution, and so does `solve`, to the same one, if the parameters can be
    written.  Where they do not work, the read fails and `solve` as well, with a fault that depends
    on whether the parameters can be written. -/
theorem faults_iff_not_workable {exp : Float → Float} {source : Source σ Float}
    {memory : Storage} {coefficients : Coefficients} {supplied : Supplied} {seed? : Option Int}
    {solver : Solver} {graph : Graph Float}
    (hcreate : (create coefficients supplied seed?).2 = .ok solver)
    (hgraph : solver.graph (Engine.doubles exp source memory) = .ok graph)
    (hseed : ∀ seed, seed? = some seed → 0 ≤ seed ∧ seed < Nat.pow 2 32) (stream : σ) :
    let engine := Engine.doubles exp source memory
    let solved := (solver.solve engine silent [] stream).1
    let sampled := (solver.sample engine (.int 1) stream).1
    (∀ value, supplied = .value value →
      solver.params.Workable graph.size ∧ solver.params.isWritable = true) ∧
    (solver.params.isWritable = false → solved = .error .unusable) ∧
    (solver.params.Workable graph.size →
      (∀ limit, ∃ steps?, solver.params.schedule.countSteps limit = .ok steps?) ∧
      (∀ limit stops fault,
        (engine.annealWithin limit solver.params solver.seed? graph stops stream).ending ≠
          .failed fault) ∧
      ∀ n, solver.params.schedule.countSteps stepLimit = .ok (some n) →
        ∃ row, sampled = .ok [row] ∧ (solver.params.isWritable = true →
          ∃ delivery, solved = .ok delivery ∧ delivery.result = .ok row.state.assignment)) ∧
    (¬ solver.params.Workable graph.size →
      (sampled = .error .wrongKind ∨ sampled = .error .overflow) ∧
      (solver.params.isWritable = true → solved = .error .overflow ∨
        ∃ delivery, solved = .ok delivery ∧ delivery.result = .error .wrongKind)) := by
  intro engine solved sampled
  obtain ⟨rfl, hread⟩ := create_eq_ok hcreate
  obtain ⟨hvalid, -⟩ := Params.validate_of_read hread
  obtain ⟨start, hstart⟩ := source.exists_streamFor hseed stream
  obtain ⟨initial, final, factor, hregular⟩ :=
    Params.exists_regular (Params.numeric_of_validate hvalid) hvalid
  refine ⟨?_, fun hlengthy => ?_, fun hworkable => ⟨?_, ?_, ?_⟩, fun hbroken => ?_⟩
  · rintro value rfl
    exact ⟨Params.workable_of_read hread graph.size, Params.isWritable_of_read hread⟩
  · exact congrArg Prod.fst (solve_of_not_isWritable hgraph hlengthy)
  · exact hregular.exists_countSteps (hregular.isDouble_of_workable hworkable)
  · intro limit stops fault
    rw [Engine.annealWithin_eq hstart]
    exact hregular.not_failed_of_workable hworkable stops limit start fault
  · intro n hends
    exact sample_of_workable hvalid hgraph hworkable hstart hends
  · obtain ⟨⟨fault, hsample, hfault⟩, hsolve⟩ :=
      fails_of_not_workable hvalid hgraph hbroken hstart
    refine ⟨?_, fun hwritable => (hsolve hwritable).imp And.right And.right⟩
    cases hfault with
    | inl htrials => exact .inl (htrials.1 ▸ hsample)
    | inr hrounded => exact .inr (hrounded.1 ▸ hsample)

end Solver

/-! ## Examples -/

/-- A map that sets all four parameters, in mixed notations. -/
def Params.entries : List (Value × Value) :=
  [(.text "kTinit", .int 10), (.text "cl", .text "0.5"), (.text "final_temperature", .int 1),
    (.text "rpt", .float 5)]

theorem Solver.faults_iff_not_workable_entries :
    let engine := Engine.doubles Float.exp Twister.source .gibibyte
    ∃ solver graph delivery row,
      (create Coefficients.sample (.value (.dict Params.entries)) (some 1)).2 = .ok solver ∧
      solver.graph engine = .ok graph ∧
      solver.params.Workable graph.size ∧ solver.params.isWritable = true ∧
      (solver.solve engine silent [] (Twister.seeded 0)).1 = .ok delivery ∧
      delivery.result = .ok row.state.assignment ∧
      (solver.sample engine (.int 1) (Twister.seeded 0)).1 = .ok [row] := by
  intro engine
  have hcreate : (create Coefficients.sample (.value (.dict Params.entries)) (some 1)).2 =
      .ok sampler := rfl
  obtain ⟨graph, hgraph⟩ : ∃ graph, sampler.graph engine = .ok graph := ⟨_, rfl⟩
  have hseed : ∀ seed, some (1 : Int) = some seed → 0 ≤ seed ∧ seed < Nat.pow 2 32 := by
    intro seed hsame
    cases hsame
    decide
  obtain ⟨hmap, -, hworks, -⟩ := faults_iff_not_workable hcreate hgraph hseed (Twister.seeded 0)
  obtain ⟨hworkable, hwritable⟩ := hmap _ rfl
  obtain ⟨-, -, hends⟩ := hworks hworkable
  obtain ⟨row, hsample, hdelivers⟩ := hends 4 rfl
  obtain ⟨delivery, hsolve, hresult⟩ := hdelivers hwritable
  exact ⟨sampler, graph, delivery, row, hcreate, hgraph, hworkable, hwritable, hsolve, hresult,
    hsample⟩

/-- All three are accepted as ready parameters, and their solvers have a graph.  With the first,
    `solve` fails before there is a future; with the second, its future does.  A read fails with
    either.  With the third there is a read, and still `solve` fails. -/
theorem Solver.exists_create_fails :
    let engine := Engine.doubles Float.exp Twister.source .gibibyte
    let coefficients : Coefficients := [(.text "0", .int 1)]
    (∃ solver graph, (create coefficients (.params .enormous) (some 1)).2 = .ok solver ∧
      solver.graph engine = .ok graph ∧
      (solver.solve engine silent [] (Twister.seeded 0)).1 = .error .overflow ∧
      (solver.sample engine (.int 1) (Twister.seeded 0)).1 = .error .overflow) ∧
    (∃ solver graph delivery, (create coefficients (.params .fractional) (some 1)).2 = .ok solver ∧
      solver.graph engine = .ok graph ∧
      (solver.solve engine silent [] (Twister.seeded 0)).1 = .ok delivery ∧
      delivery.result = .error .wrongKind ∧
      (solver.sample engine (.int 1) (Twister.seeded 0)).1 = .error .wrongKind) ∧
    ∃ solver graph row, (create coefficients (.params .lengthy) (some 1)).2 = .ok solver ∧
      solver.graph engine = .ok graph ∧
      (solver.solve engine silent [] (Twister.seeded 0)).1 = .error .unusable ∧
      (solver.sample engine (.int 1) (Twister.seeded 0)).1 = .ok [row] := by
  intro engine coefficients
  have hgraph (params : Params) : ∃ graph : Graph Float, graph.size = 1 ∧
      (Solver.mk coefficients [0] params (some 1)).graph engine = .ok graph := ⟨_, rfl, rfl⟩
  have hstart : Twister.source.streamFor (some 1) (Twister.seeded 0) = .ok (Twister.seeded 1) :=
    rfl
  refine ⟨?_, ?_, ?_⟩
  · obtain ⟨graph, -, hgraph⟩ := hgraph .enormous
    have hrounded : Params.enormous.initialTemperature.toFloat? = .error .overflow := by
      have hnone : Decimal.ofInt? (10 ^ 200 * 10 ^ 200) = none := by decide +kernel
      simp only [Params.enormous, Value.toFloat?, Value.toNumber?, Value.number?, bind, Except.bind,
        Number.toFloat?, hnone]
    have hwritable : Params.enormous.isWritable = true := by decide +kernel
    have hbroken : ¬ Params.enormous.Workable graph.size := by
      intro hworkable
      obtain ⟨⟨x, hx⟩, -⟩ := hworkable rfl
      rw [hrounded] at hx
      cases hx
    obtain ⟨⟨fault, hsample, hfault⟩, hsolve⟩ := fails_of_not_workable rfl hgraph hbroken hstart
    refine ⟨_, graph, rfl, hgraph, ?_, ?_⟩
    · rcases hsolve hwritable with ⟨-, hsolve⟩ | ⟨⟨x, hx⟩, -⟩
      · exact hsolve
      · rw [hrounded] at hx
        cases hx
    · rcases hfault with ⟨-, htrials⟩ | ⟨rfl, -⟩
      · cases htrials
      · exact hsample
  · obtain ⟨graph, hsize, hgraph⟩ := hgraph .fractional
    have hwritable : Params.fractional.isWritable = true := by decide +kernel
    have hbroken : ¬ Params.fractional.Workable graph.size := by
      intro hworkable
      obtain ⟨-, hempty | ⟨trials, htrials⟩⟩ := hworkable rfl
      · rw [hsize] at hempty
        cases hempty
      · cases htrials
    obtain ⟨⟨fault, hsample, hfault⟩, hsolve⟩ := fails_of_not_workable rfl hgraph hbroken hstart
    rcases hsolve hwritable with ⟨hrounded, -⟩ | ⟨-, delivery, hsolve, hresult⟩
    · cases hrounded
    · refine ⟨_, graph, delivery, rfl, hgraph, hsolve, hresult, ?_⟩
      rcases hfault with ⟨rfl, -⟩ | ⟨-, hrounded⟩
      · exact hsample
      · cases hrounded
  · obtain ⟨graph, -, hgraph⟩ := hgraph .lengthy
    have hworkable : Params.lengthy.Workable graph.size := by
      intro hcools
      cases hcools
    have hread : Params.read (.params .lengthy) = ⟨[], .ok .lengthy⟩ :=
      congrArg (Reading.mk []) Params.lengthy_validate
    let solver : Solver := ⟨coefficients, [0], .lengthy, some 1⟩
    have hcreate : create coefficients (.params .lengthy) (some 1) = ([], .ok solver) :=
      create_eq_ok_iff.mpr ⟨[0], .lengthy, rfl, hread, rfl⟩
    have hvalid : solver.params.validate = .ok solver.params := Params.lengthy_validate
    have hends : solver.params.schedule.countSteps stepLimit = .ok (some 0) := rfl
    have hlengthy : solver.params.isWritable = false := Params.lengthy_isWritable
    obtain ⟨row, hsample, -⟩ := sample_of_workable hvalid hgraph hworkable hstart hends
    have hsolve : solver.solve engine silent [] (Twister.seeded 0) =
        (.error .unusable, Twister.seeded 0) := solve_of_not_isWritable hgraph hlengthy
    exact ⟨solver, graph, row, congrArg Prod.snd hcreate, hgraph, congrArg Prod.fst hsolve,
      hsample⟩

end Annealing
