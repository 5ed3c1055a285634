import Annealing.Proofs.Anneal.Cancellation
import Annealing.Proofs.Anneal.Reports
import Annealing.Proofs.Delivery.Outlook
import Annealing.Session

/-! # A seeded session has no history

What a session keeps from one request to the next is a stream of draws, a graph and the caller's
map.  A solver with a seed starts the stream anew wherever it draws, the graph that is kept is the
one that would be built, and the solver works on a copy of the map.  So whatever was requested
before, each request is answered as if it were the first one.

* `Faithful` — what every request keeps.
* `answer_eq`, `calls_eq` — two faithful sessions of one seeded solver answer alike, and call back
  alike.
* `answers_eq_first` — every answer of a session is that of a fresh one.
-/

namespace Annealing

variable {ω σ ρ : Type}

/-! ## Seeded draws -/

section Seeded

variable [OfNat ω 0] [Add ω] [Neg ω]

/-- What an anneal from a seed reports, and how it ends, does not depend on the stream that is
    there. -/
theorem Engine.exists_annealWithin_seeded (engine : Engine ω σ ρ) (limit : Nat) (params : Params)
    (seed : Int) (graph : Graph ω) (stops : List Signal) (stream again : σ) :
    ∃ final, engine.annealWithin limit params (some seed) graph stops stream =
      { engine.annealWithin limit params (some seed) graph stops again with stream := final } := by
  simp only [annealWithin, Source.streamFor]
  cases engine.source.seeded? seed with
  | error fault => exact ⟨stream, rfl⟩
  | ok start => exact ⟨_, rfl⟩

namespace Solver

/-- The calls of its callback that a solver makes, one that raises a fault included. -/
def calls (engine : Engine ω σ ρ) (solver : Solver) (callback : Callback) (stops : List Signal)
    (stream : σ) : List Call :=
  match solver.graph engine with
  | .error _ => []
  | .ok graph =>
    match solver.opening graph, solver.params.schedule.countSteps stepLimit with
    | .ok _, .ok _ =>
      let run := engine.anneal solver.params solver.seed? graph stops stream
      (attend graph callback [] run.messages).elim [] fun done => done.1.reverse
    | _, _ => []

variable {engine : Engine ω σ ρ} {solver : Solver} {seed : Int}

theorem solve_seeded (hseed : solver.seed? = some seed) (callback : Callback)
    (stops : List Signal) (stream again : σ) :
    (solver.solve engine callback stops stream).1 =
      (solver.solve engine callback stops again).1 := by
  simp only [solve, hseed, Engine.anneal]
  cases solver.graph engine with
  | error fault => rfl
  | ok graph =>
    obtain ⟨final, hrun⟩ :=
      engine.exists_annealWithin_seeded stepLimit solver.params seed graph stops stream again
    simp only [hrun]
    cases solver.opening graph with
    | error fault => rfl
    | ok text => cases solver.params.schedule.countSteps stepLimit <;> rfl

theorem calls_seeded (hseed : solver.seed? = some seed) (callback : Callback)
    (stops : List Signal) (stream again : σ) :
    solver.calls engine callback stops stream = solver.calls engine callback stops again := by
  simp only [calls, hseed, Engine.anneal]
  cases solver.graph engine with
  | error fault => rfl
  | ok graph =>
    obtain ⟨final, hrun⟩ :=
      engine.exists_annealWithin_seeded stepLimit solver.params seed graph stops stream again
    simp only [hrun]
    rfl

theorem sample_seeded (hseed : solver.seed? = some seed) (count : Value) (stream again : σ) :
    (solver.sample engine count stream).1 = (solver.sample engine count again).1 := by
  simp only [sample, hseed, Source.streamFor]
  cases solver.graph engine with
  | error fault => rfl
  | ok graph =>
    cases engine.source.seeded? seed with
    | error fault => rfl
    | ok start => rfl

end Solver

end Seeded

namespace Session

section Requests

variable [OfNat ω 0] [OfNat ω 1] [OfNat ω 2] [Add ω] [Neg ω] [Mul ω] [Div ω]

/-! ## Sessions at work -/

/-- The session that requests leave behind. -/
def after (engine : Engine ω σ ρ) (session : Session ω σ) (requests : List Request) :
    Session ω σ :=
  requests.foldl (fun session request => (session.answer engine request).2) session

/-- The session works for the solver, and the graph that it keeps is the one that the solver would
    build. -/
structure Faithful (engine : Engine ω σ ρ) (solver : Solver) (session : Session ω σ) : Prop where
  solver_eq : session.solver = solver
  graph_eq : ∀ graph, session.graph? = some graph → solver.graph engine = .ok graph

variable {engine : Engine ω σ ρ} {solver : Solver} {session other : Session ω σ}

omit [OfNat ω 1] [OfNat ω 2] [Neg ω] [Mul ω] [Div ω] in
theorem faithful_fresh (coefficients : Coefficients) (stream : σ) :
    Faithful engine solver (fresh coefficients solver stream) :=
  ⟨rfl, fun _ hnone => by cases hnone⟩

omit [OfNat ω 1] [OfNat ω 2] [Neg ω] [Mul ω] [Div ω] in
/-- The graph for energies is the one that would be built now. -/
theorem Faithful.keptGraph_eq (hfaithful : Faithful engine solver session) :
    session.keptGraph engine = solver.graph engine := by
  rw [keptGraph]
  cases hgraph : session.graph? with
  | none => simp only [hfaithful.solver_eq]
  | some graph => exact (hfaithful.graph_eq graph hgraph).symm

theorem Faithful.answer (hfaithful : Faithful engine solver session) (request : Request) :
    Faithful engine solver (session.answer engine request).2 := by
  -- Only a request for an energy looks at the kept graph, and keeps what it found.
  cases request with
  | change edit => cases edit <;> exact ⟨hfaithful.solver_eq, hfaithful.graph_eq⟩
  | energy assignment =>
    rw [Session.answer, hfaithful.keptGraph_eq]
    split
    · exact hfaithful
    · exact hfaithful
    · rename_i graph _ hgraph
      refine ⟨hfaithful.solver_eq, fun kept hkept => ?_⟩
      cases hkept
      exact hgraph
  | graph => exact hfaithful
  | reseed seed =>
    rw [Session.answer]
    split <;> exact ⟨hfaithful.solver_eq, hfaithful.graph_eq⟩
  | solve callback stops => exact ⟨hfaithful.solver_eq, hfaithful.graph_eq⟩
  | sample count =>
    rw [Session.answer]
    split <;> exact ⟨hfaithful.solver_eq, hfaithful.graph_eq⟩

theorem Faithful.after (hfaithful : Faithful engine solver session) (requests : List Request) :
    Faithful engine solver (session.after engine requests) := by
  induction requests generalizing session with
  | nil => exact hfaithful
  | cons request requests ih => exact ih (hfaithful.answer request)

/-! ## Two sessions side by side -/

/-- The calls that a request makes of its callback. -/
def calls (engine : Engine ω σ ρ) (session : Session ω σ) : Request → List Call
  | .solve callback stops => session.solver.calls engine callback stops session.stream
  | .change _ | .energy _ | .graph | .reseed _ | .sample _ => []

/-- Two sessions of one seeded solver give the same answer, whatever each has been asked before. -/
theorem answer_eq {seed : Int} (hseed : solver.seed? = some seed)
    (hfaithful : Faithful engine solver session) (hother : Faithful engine solver other)
    (request : Request) :
    (session.answer engine request).1 = (other.answer engine request).1 := by
  cases request with
  | change edit => cases edit <;> rfl
  | energy assignment =>
    simp only [answer, hfaithful.keptGraph_eq, hother.keptGraph_eq]
    cases Value.entriesOf assignment with
    | error fault => rfl
    | ok assignment => cases solver.graph engine <;> rfl
  | graph => simp only [answer, hfaithful.solver_eq, hother.solver_eq]
  | reseed seed =>
    simp only [answer]
    cases engine.source.seeded? seed <;> rfl
  | solve callback stops =>
    simp only [answer, hfaithful.solver_eq, hother.solver_eq]
    rw [Solver.solve_seeded hseed callback stops session.stream other.stream]
  | sample count =>
    simp only [answer, hfaithful.solver_eq, hother.solver_eq]
    cases count.checked with
    | error fault => rfl
    | ok count =>
      simp only
      rw [Solver.sample_seeded hseed count session.stream other.stream]

omit [OfNat ω 1] [OfNat ω 2] [Mul ω] [Div ω] in
/-- And they make the same calls. -/
theorem calls_eq {seed : Int} (hseed : solver.seed? = some seed)
    (hfaithful : Faithful engine solver session) (hother : Faithful engine solver other)
    (request : Request) : session.calls engine request = other.calls engine request := by
  cases request with
  | solve callback stops =>
    simp only [calls, hfaithful.solver_eq, hother.solver_eq]
    exact Solver.calls_seeded hseed callback stops session.stream other.stream
  | change _ | energy _ | graph | reseed _ | sample _ => rfl

/-! ## Whole sessions -/

theorem answers_eq_map {seed : Int} (hseed : solver.seed? = some seed)
    (hfaithful : Faithful engine solver session) (hother : Faithful engine solver other)
    (requests : List Request) :
    session.answers engine requests =
      requests.map fun request => (other.answer engine request).1 := by
  induction requests generalizing session with
  | nil => rfl
  | cons request requests ih =>
    simp only [answers, List.map_cons, ih (hfaithful.answer request),
      answer_eq hseed hfaithful hother request]

/-- A session with a solver that was set up with a seed.  Whatever has been requested of it, and
    however its caller has changed the map, every further request is answered, and calls back, as if
    it were the first request of a session with a solver that is set up from the same map, in
    whatever state the stream of draws is found there.  So the answers to a list of requests are
    those to the requests one by one. -/
theorem answers_eq_first {coefficients : Coefficients} {supplied : Supplied} {seed : Int}
    (hcreate : (Solver.create coefficients supplied (some seed)).2 = .ok solver)
    (engine : Engine ω σ ρ) (stream again : σ) (requests : List Request) :
    let session : Session ω σ := fresh coefficients solver stream
    let first : Session ω σ := fresh coefficients solver again
    (∀ request,
      ((session.after engine requests).answer engine request).1 =
          (first.answer engine request).1 ∧
        (session.after engine requests).calls engine request = first.calls engine request) ∧
      session.answers engine requests =
        requests.map fun request => (first.answer engine request).1 := by
  intro session first
  have hseed : solver.seed? = some seed := by
    unfold Solver.create at hcreate
    split at hcreate
    · cases hcreate
    · rename_i vars hvars
      cases hread : (Params.read supplied).result with
      | error fault => simp [hread, Except.map] at hcreate
      | ok params =>
        simp only [hread, Except.map, Except.ok.injEq] at hcreate
        rw [← hcreate]
  have hsession : Faithful engine solver session := faithful_fresh coefficients stream
  have hfirst : Faithful engine solver first := faithful_fresh coefficients again
  have hafter := hsession.after requests
  refine ⟨fun request => ⟨?_, ?_⟩, answers_eq_map hseed hsession hfirst requests⟩
  · exact answer_eq hseed hafter hfirst request
  · exact calls_eq hseed hafter hfirst request

end Requests

end Session

/-! ## An example

A callback that fails, a new entry in the caller's map, which then loses all of its entries, and
another seed of the stream leave no trace. -/

/-- A seeded solver for examples. -/
def Solver.sampler : Solver where
  coefficients := Coefficients.sample
  vars := Graph.sample.vars
  params := Params.sample
  seed? := some 1

theorem Session.answers_eq_first_sample :
    (Solver.create Coefficients.sample (.params Params.sample) (some 1)).2 = .ok Solver.sampler ∧
      let requests : List Request :=
        [.solve (Callback.failingAfter (some 1)) [], .put (.text "9") (.int 1),
          .change (.ok fun _ => []), .reseed 7, .energy [(.int 5, .bool true)],
          .sample (.int 2)]
      let first : Session ℚ Twister :=
        fresh Coefficients.sample Solver.sampler (Twister.seeded 3)
      (fresh Coefficients.sample Solver.sampler (Twister.seeded 0)).answers Engine.downhill
          requests =
        requests.map fun request => (first.answer Engine.downhill request).1 := by
  have hcreate : (Solver.create Coefficients.sample (.params Params.sample) (some 1)).2 =
      .ok Solver.sampler := rfl
  exact ⟨hcreate, (answers_eq_first hcreate Engine.downhill _ _ _).2⟩

end Annealing
