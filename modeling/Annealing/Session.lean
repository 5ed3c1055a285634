import Annealing.Solver

/-!
# Sessions

A session is a solver at work: its caller makes one request after the other, may change the map
that the solver was set up from, and may seed the stream of draws.

The solver keeps a copy of the map, so changes of the caller's map do not reach it.  The graph is
built once for all energies, when the first one is asked for, and built anew for everything else.
-/

namespace Annealing

inductive Request where
  -- Change the caller's own map, in any way at all.  A change that cannot be made is a fault.
  | change (edit : Except Fault (Coefficients → Coefficients))
  -- The energy of an assignment.
  | energy (assignment : Assignment)
  | graph
  -- Seed the stream of draws.
  | reseed (seed : Int)
  | solve (callback : Callback) (stops : List Signal)
  | sample (count : Value)

/-- Put an entry into the caller's own map.  Not every key can stand in one. -/
def Request.put (key weight : Value) : Request :=
  .change ((Value.entriesOf [(key, weight)]).map fun _ => Value.put key weight)

inductive Answer (ω : Type) where
  -- There is nothing to say.
  | done
  | energy (energy : ω)
  | graph (graph : Graph ω)
  | delivery (delivery : Delivery)
  | samples (samples : List (Sample ω))

structure Session (ω σ : Type) where
  -- The caller's own map.
  coefficients : Coefficients
  solver : Solver
  -- The graph, once an energy has been asked for.
  graph? : Option (Graph ω)
  stream : σ

namespace Session

variable {ω σ ρ : Type}

/-- A session in which nothing has been asked for. -/
def fresh (coefficients : Coefficients) (solver : Solver) (stream : σ) : Session ω σ :=
  ⟨coefficients, solver, none, stream⟩

section Weights

variable [OfNat ω 0] [Add ω]

/-- The graph for energies: the one that is kept, or else a new one. -/
def keptGraph (engine : Engine ω σ ρ) (session : Session ω σ) : Except Fault (Graph ω) :=
  match session.graph? with
  | some graph => .ok graph
  | none => session.solver.graph engine

variable [OfNat ω 1] [OfNat ω 2] [Neg ω] [Mul ω] [Div ω]

def answer (engine : Engine ω σ ρ) (session : Session ω σ) :
    Request → Except Fault (Answer ω) × Session ω σ
  | .change (.error fault) => (.error fault, session)
  | .change (.ok edit) =>
    (.ok .done, { session with coefficients := edit session.coefficients })
  | .reseed seed =>
    match engine.source.seeded? seed with
    | .error fault => (.error fault, session)
    | .ok stream => (.ok .done, { session with stream := stream })
  | .graph => ((session.solver.graph engine).map .graph, session)
  | .energy assignment =>
    match Value.entriesOf assignment, session.keptGraph engine with
    | .error fault, _ => (.error fault, session)
    | _, .error fault => (.error fault, session)
    | .ok assignment, .ok graph =>
      ((graph.assignmentEnergy assignment).map .energy, { session with graph? := some graph })
  | .solve callback stops =>
    let (delivery, stream) := session.solver.solve engine callback stops session.stream
    (delivery.map .delivery, { session with stream := stream })
  | .sample count =>
    match count.checked with
    | .error fault => (.error fault, session)
    | .ok count =>
      let (samples, stream) := session.solver.sample engine count session.stream
      (samples.map .samples, { session with stream := stream })

/-- Answer requests one after the other.  A fault answers its own request only. -/
def answers (engine : Engine ω σ ρ) (session : Session ω σ) :
    List Request → List (Except Fault (Answer ω))
  | [] => []
  | request :: requests =>
    let (first, session) := session.answer engine request
    first :: session.answers engine requests

end Weights

end Session

end Annealing
