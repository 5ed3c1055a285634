import Annealing.Proofs.Graph.QuadraticForm
import Annealing.Proofs.Session.History

/-! # Energies in a session

A session answers energies from a graph that it builds once and keeps, by the quadratic form over
the coupling matrix; the energies of samples come from the anneals, which keep them up to date by
adding changes.  Whatever has been requested before, both are the energy of the state.

* `Serves` — what every request keeps: the solver, and a kept graph that is the solver's own.
* `Solver.isRead_sample` — a sample is a state of the graph and its energy.
* `energies_agree` — the answers to energy requests are the energies of states, samples included.
-/

namespace Annealing

open State (Binary)

variable {ω σ ρ : Type}

/-! ## Sessions with a known graph -/

namespace Session

section Requests

variable [OfNat ω 0] [OfNat ω 1] [OfNat ω 2] [Add ω] [Neg ω] [Mul ω] [Div ω]

/-- The session works for a solver whose graph is known. -/
structure Serves (solver : Solver) (graph : Graph ω) (session : Session ω σ) : Prop where
  solver_eq : session.solver = solver
  graph?_eq : session.graph? = none ∨ session.graph? = some graph

variable {engine : Engine ω σ ρ} {solver : Solver} {graph : Graph ω} {session : Session ω σ}

omit [OfNat ω 1] [OfNat ω 2] [Neg ω] [Mul ω] [Div ω] in
theorem Serves.faithful (hgraph : solver.graph engine = .ok graph)
    (hserves : Serves solver graph session) : Faithful engine solver session := by
  refine ⟨hserves.solver_eq, fun kept hkept => ?_⟩
  cases hserves.graph?_eq with
  | inl hnone => simp [hnone] at hkept
  | inr hsome =>
    rw [hsome, Option.some.injEq] at hkept
    rw [← hkept, hgraph]

omit [OfNat ω 1] [OfNat ω 2] [Neg ω] [Mul ω] [Div ω] in
theorem Faithful.serves (hgraph : solver.graph engine = .ok graph)
    (hfaithful : Faithful engine solver session) : Serves solver graph session := by
  refine ⟨hfaithful.solver_eq, ?_⟩
  cases hkept : session.graph? with
  | none => exact .inl rfl
  | some kept =>
    have hsame := hfaithful.graph_eq kept hkept
    rw [hgraph, Except.ok.injEq] at hsame
    exact .inr (congrArg some hsame.symm)

omit [OfNat ω 1] [OfNat ω 2] [Neg ω] [Mul ω] [Div ω] in
theorem Serves.keptGraph_eq (hgraph : solver.graph engine = .ok graph)
    (hserves : Serves solver graph session) : session.keptGraph engine = .ok graph :=
  (hserves.faithful hgraph).keptGraph_eq.trans hgraph

/-- No request changes the solver, and the graph that is kept is the solver's. -/
theorem Serves.answer (hgraph : solver.graph engine = .ok graph)
    (hserves : Serves solver graph session) (request : Request) :
    Serves solver graph (session.answer engine request).2 :=
  ((hserves.faithful hgraph).answer request).serves hgraph

theorem Serves.after (hgraph : solver.graph engine = .ok graph)
    (hserves : Serves solver graph session) (requests : List Request) :
    Serves solver graph (session.after engine requests) :=
  ((hserves.faithful hgraph).after requests).serves hgraph

omit [OfNat ω 0] [OfNat ω 1] [OfNat ω 2] [Add ω] [Neg ω] [Mul ω] [Div ω] in
theorem serves_fresh (coefficients : Coefficients) (stream : σ) :
    Serves solver graph (fresh coefficients solver stream) :=
  ⟨rfl, .inl rfl⟩

end Requests

end Session

/-! ## Samples -/

namespace Solver

section Samples

variable [AddCommGroup ω] {engine : Engine ω σ ρ} {solver : Solver} {graph : Graph ω}

/-- A read is a binary state of the graph, told by its variables, and the energy of that state. -/
def IsRead (graph : Graph ω) (sample : Sample ω) : Prop :=
  ∃ state, Binary graph.size state ∧ sample.state = graph.toAssignment state.toList ∧
    sample.energy = graph.energy state

/-- The last report of an anneal is a read. -/
theorem isRead_lastRead (hwf : graph.WellFormed) {stops : List Signal} {stream : σ}
    {sample : Sample ω}
    (hread : lastRead graph (solver.anneal engine graph stops stream) = .ok sample) :
    IsRead graph sample := by
  unfold lastRead at hread
  split at hread
  · rename_i report _ hlast
    cases hread
    obtain ⟨reached, finished, hreached, rfl⟩ :=
      Plan.exists_walk_of_mem_reports (solver.params.plan engine.accept) engine.source graph stops
        (P := Plan.UpToDate graph)
        (fun walk next stream h hstep =>
          ⟨Plan.coolingStep_binary h.binary hstep,
            Plan.coolingStep_energy hwf h.binary h.energy_eq hstep⟩)
        stepLimit ⟨Plan.start_binary _ engine.source graph stream, rfl⟩ report
        (List.mem_of_getLast? hlast)
    exact ⟨reached.state, hreached.binary, rfl, hreached.energy_eq⟩
  · cases hread

theorem isRead_reads (hwf : graph.WellFormed) {count : Nat} {earlier samples : List (Sample ω)}
    {stream : σ} (hreads : (solver.reads engine graph count earlier stream).1 = .ok samples)
    (hearlier : ∀ sample ∈ earlier, IsRead graph sample) :
    ∀ sample ∈ samples, IsRead graph sample := by
  induction count generalizing earlier stream with
  | zero =>
    cases hreads
    simpa using hearlier
  | succ count ih =>
    rw [reads] at hreads
    split at hreads
    · cases hreads
    · rename_i sample hread
      exact ih hreads (List.forall_mem_cons.mpr ⟨isRead_lastRead hwf hread, hearlier⟩)

theorem isRead_sample (hgraph : solver.graph engine = .ok graph) {count : Value} {stream : σ}
    {samples : List (Sample ω)} (hsample : (solver.sample engine count stream).1 = .ok samples) :
    ∀ sample ∈ samples, IsRead graph sample := by
  rw [sample, hgraph] at hsample
  simp only at hsample
  split at hsample
  · cases hsample
  · split at hsample
    · cases hsample
    · exact isRead_reads (Graph.wellFormed_of_build hgraph) hsample (by simp)

end Samples

end Solver

/-! ## Sampling goes through -/

namespace Solver

section Ready

variable [OfNat ω 0] [Add ω] [Neg ω] {engine : Engine ω σ ρ} {solver : Solver}

/-- Under these parameters no anneal fails: they are accepted, the number of sweeps is whole, and
    the schedule ends.  The seed, if there is one, is usable. -/
structure Ready (engine : Engine ω σ ρ) (solver : Solver) : Prop where
  decides : engine.Decides
  numeric : solver.params.Numeric
  valid : solver.params.validate = .ok solver.params
  whole : ∃ trials, trialCount solver.params.sweepsPerTemperature = .ok trials
  ends : ∃ n, solver.params.schedule.countSteps stepLimit = .ok (some n)
  seeded : ∀ stream, ∃ start, engine.source.streamFor solver.seed? stream = .ok start

theorem Ready.exists_lastRead (hready : solver.Ready engine) (graph : Graph ω) (stream : σ) :
    ∃ sample, lastRead graph (solver.anneal engine graph [] stream) = .ok sample := by
  obtain ⟨initial, final, factor, hregular⟩ := Params.exists_regular hready.numeric hready.valid
  obtain ⟨n, hends⟩ := hready.ends
  have hnumber : Temperature.IsNumber (.ofValue solver.params.initialTemperature) :=
    ⟨_, initial, rfl, hregular.initial_eq⟩
  have hfinished : (solver.anneal engine graph [] stream).ending = .finished ∧
      0 + (solver.anneal engine graph [] stream).reports.length = n + 1 :=
    Plan.runFrom_finished engine.source graph (hregular.steady hready.decides hready.whole)
      hnumber hends
  obtain ⟨hending, hlength⟩ := hfinished
  unfold lastRead
  cases hlast : (solver.anneal engine graph [] stream).reports.getLast? with
  | none =>
    rw [List.getLast?_eq_none_iff.mp hlast] at hlength
    simp at hlength
  | some report =>
    rw [hending]
    exact ⟨_, rfl⟩

/-- Where no anneal fails each of the reads is made, after those that were made earlier. -/
theorem exists_reads {graph : Graph ω}
    (hread : ∀ stream, ∃ sample, lastRead graph (solver.anneal engine graph [] stream) = .ok sample)
    (count : Nat) (earlier : List (Sample ω)) (stream : σ) :
    ∃ samples, (solver.reads engine graph count earlier stream).1 = .ok samples ∧
      samples.length = earlier.length + count := by
  induction count generalizing earlier stream with
  | zero => exact ⟨earlier.reverse, rfl, by simp⟩
  | succ count ih =>
    obtain ⟨sample, hsample⟩ := hread stream
    obtain ⟨samples, hrest, hlength⟩ :=
      ih (sample :: earlier) (solver.anneal engine graph [] stream).stream
    refine ⟨samples, ?_, ?_⟩
    · rw [reads, hsample]
      exact hrest
    · rw [hlength, List.length_cons]
      omega

/-- As many samples come out as are asked for. -/
theorem Ready.exists_samples (hready : solver.Ready engine) {graph : Graph ω}
    (hgraph : solver.graph engine = .ok graph) {count : Value} {n : Nat}
    (hcount : readCount engine.memory count = .ok n) (stream : σ) :
    ∃ samples, (solver.sample engine count stream).1 = .ok samples ∧ samples.length = n := by
  obtain ⟨start, hstart⟩ := hready.seeded stream
  obtain ⟨samples, hreads, hlength⟩ := exists_reads (hready.exists_lastRead graph) n [] start
  refine ⟨samples, ?_, by simpa using hlength⟩
  rw [sample, hgraph]
  simp only [hstart, hcount, hreads]

end Ready

end Solver

/-! ## Answers -/

namespace Session

section Answers

variable [DivisionRing ω] [NeZero (2 : ω)] {engine : Engine ω σ ρ} {solver : Solver}
  {graph : Graph ω} {session : Session ω σ}

/-- An energy is answered by the energy of the state of the assignment. -/
theorem answer_energy (hgraph : solver.graph engine = .ok graph)
    (hserves : Serves solver graph session) {assignment : Assignment}
    (hsound : Value.soundEntries assignment = true) {state : State}
    (hstate : graph.toState assignment = .ok state) (hbinary : Binary graph.size state) :
    (session.answer engine (.energy assignment)).1 = .ok (.energy (graph.energy state)) := by
  have hentries : Value.entriesOf assignment = .ok assignment := if_pos hsound
  have hform := Graph.quadraticForm_bits (Graph.wellFormed_of_build hgraph)
    (fun i => Graph.row_toSparse_of_build hgraph) hbinary
  simp [answer, hentries, hserves.keptGraph_eq hgraph, Graph.assignmentEnergy, hstate, hform,
    bind, Except.bind, pure, Except.pure, Except.map]

omit [NeZero (2 : ω)] in
/-- The samples of an answer are those of the solver. -/
theorem sample_of_answer {count : Value} {samples : List (Sample ω)}
    (hanswer : (session.answer engine (.sample count)).1 = .ok (.samples samples)) :
    (session.solver.sample engine count session.stream).1 = .ok samples := by
  rw [answer, Value.checked] at hanswer
  split at hanswer
  · cases hanswer
  · rename_i checked hchecked
    split at hchecked
    · cases hchecked
      cases hresult : (session.solver.sample engine count session.stream).1 with
      | error fault => simp [hresult, Except.map] at hanswer
      | ok found => simpa [hresult, Except.map] using hanswer
    · cases hchecked

omit [NeZero (2 : ω)] in
/-- A solver whose anneals go through answers with as many samples as are asked for. -/
theorem exists_answer_sample (hgraph : solver.graph engine = .ok graph)
    (hready : solver.Ready engine) (hserves : Serves solver graph session) {count : Value} {n : Nat}
    (hsound : count.isSound = true) (hcount : Solver.readCount engine.memory count = .ok n) :
    ∃ samples, (session.answer engine (.sample count)).1 = .ok (.samples samples) ∧
      samples.length = n := by
  obtain ⟨samples, hsamples, hlength⟩ := hready.exists_samples hgraph hcount session.stream
  refine ⟨samples, ?_, hlength⟩
  simp [answer, Value.checked, hsound, hserves.solver_eq, hsamples, Except.map]

end Answers

end Session

theorem soundEntries_assignment (solution : Solution) :
    Value.soundEntries solution.assignment = true := by
  unfold Solution.assignment
  induction solution with
  | nil => rfl
  | cons entry rest ih => simpa [Value.soundEntries, Value.isKey, Value.isSound] using ih

/-- Whatever a session has been asked before: the energy of an assignment of some variables of the
    map is that of the state of the assignment, and the energy of a sample is the one that is
    answered for its assignment. -/
theorem Session.energies_agree [DivisionRing ω] [NeZero (2 : ω)] {engine : Engine ω σ ρ}
    {solver : Solver} {graph : Graph ω} (hgraph : solver.graph engine = .ok graph)
    (coefficients : Coefficients) (stream : σ) (requests : List Request) :
    let session := (fresh coefficients solver stream : Session ω σ).after engine requests
    (∀ assignment : Assignment, Value.soundEntries assignment = true →
      (∀ entry ∈ assignment, ∃ v ∈ graph.vars, (Value.int v).eq entry.1 = true) →
        ∃ state, graph.toState assignment = .ok state ∧
          (session.answer engine (.energy assignment)).1 = .ok (.energy (graph.energy state))) ∧
    ∀ count samples, (session.answer engine (.sample count)).1 = .ok (.samples samples) →
      ∀ sample ∈ samples,
        ((session.answer engine (.sample count)).2.answer engine
          (.energy sample.state.assignment)).1 = .ok (.energy sample.energy) := by
  intro session
  have hascending := (Graph.wellFormed_of_build hgraph).ascending
  have hserves : Serves solver graph session :=
    (serves_fresh coefficients stream).after hgraph requests
  constructor
  · intro assignment hsound hvars
    obtain ⟨state, hstate, hbinary⟩ := Graph.exists_toState hascending hvars
    exact ⟨state, hstate, answer_energy hgraph hserves hsound hstate hbinary⟩
  · intro count samples hsamples sample hmem
    -- The sample is the state of a read, told by names; its assignment leads back to the state.
    have hsample := sample_of_answer hsamples
    rw [hserves.solver_eq] at hsample
    obtain ⟨state, hbinary, hassignment, henergy⟩ := Solver.isRead_sample hgraph hsample sample hmem
    have hstate : graph.toState sample.state.assignment = .ok state := by
      rw [hassignment]
      exact Graph.toState_toAssignment hascending hbinary
    rw [henergy]
    exact answer_energy hgraph (hserves.answer hgraph (.sample count))
      (soundEntries_assignment sample.state) hstate hbinary

theorem Session.energies_agree_sample :
    Solver.sampler.graph Engine.downhill = .ok Graph.sample ∧
      let session := (fresh Coefficients.sample Solver.sampler (Twister.seeded 0)).after
        Engine.downhill [.put (.text "9") (.int 1), .sample (.int 1)]
      (∃ state, Graph.sample.toState [(.float 5, .text "on"), (.bool true, .int (-1))] = .ok state ∧
        (session.answer Engine.downhill
          (.energy [(.float 5, .text "on"), (.bool true, .int (-1))])).1 =
            .ok (.energy (Graph.sample.energy state))) ∧
      ∃ samples, (session.answer Engine.downhill (.sample (.int 2))).1 = .ok (.samples samples) ∧
        samples.length = 2 ∧ ∀ sample ∈ samples,
          ((session.answer Engine.downhill (.sample (.int 2))).2.answer Engine.downhill
            (.energy sample.state.assignment)).1 = .ok (.energy sample.energy) := by
  have hgraph : Solver.sampler.graph Engine.downhill = .ok Graph.sample := Graph.build_sample
  obtain ⟨henergy, hsamples⟩ := energies_agree hgraph Coefficients.sample (Twister.seeded 0)
    [.put (.text "9") (.int 1), .sample (.int 1)]
  have hready : Solver.sampler.Ready Engine.downhill :=
    { decides := fun _ _ _ _ _ => ⟨_, rfl⟩
      numeric := fun field => by cases field <;> exact ⟨_, rfl⟩
      valid := rfl
      whole := ⟨5, rfl⟩
      ends := ⟨4, rfl⟩
      seeded := fun _ => ⟨_, rfl⟩ }
  have hvars : ∀ entry ∈ [(Value.float 5, Value.text "on"), (.bool true, .int (-1))],
      ∃ v ∈ Graph.sample.vars, (Value.int v).eq entry.1 = true := by
    intro entry hmem
    simp only [List.mem_cons, List.not_mem_nil, or_false] at hmem
    rcases hmem with rfl | rfl
    · exact ⟨5, by simp [Graph.sample], by decide +kernel⟩
    · exact ⟨1, by simp [Graph.sample], by decide +kernel⟩
  obtain ⟨samples, hsampled, hlength⟩ := exists_answer_sample hgraph hready
    ((serves_fresh Coefficients.sample (Twister.seeded 0)).after hgraph _) rfl
    (by rfl : Solver.readCount .gibibyte (.int 2) = .ok 2)
  exact ⟨hgraph, henergy _ rfl hvars, samples, hsampled, hlength, hsamples _ _ hsampled⟩

end Annealing
