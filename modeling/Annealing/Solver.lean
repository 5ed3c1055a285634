import Annealing.Anneal.Run
import Annealing.Graph.Sparse
import Annealing.Params.Cooling
import Annealing.Params.Reading

/-!
# Solvers

A solver keeps a problem together with its parameters and perhaps a seed.  It gives the graph of
the problem, the energy of an assignment, one anneal whose progress is delivered to a callback
(`solve`), or several anneals in a row (`sample`).

A solver never changes.  What it can leave behind is the stream of random draws, which is handed
in and out; a solver with a seed starts the stream anew each time.

The weights, the rule of acceptance, the source of draws and the room for a table of reads come
from an `Engine`; that of the program is `Engine.doubles`.

A callback gets each assignment to change as it likes, and the result of an anneal is the
assignment of the last call as the callback leaves it.
-/

namespace Annealing

/-- The memory of a machine.  There is room for one number, and no byte is without an address. -/
structure Storage where
  bytes : Int
  itemRoom_le : Value.itemRoom ≤ bytes
  lt_addressLimit : bytes < Value.addressLimit

def Storage.gibibyte : Storage :=
  ⟨Nat.pow 2 30, by decide, by decide⟩

/-- What anneals are computed with. -/
structure Engine (ω σ ρ : Type) where
  -- Read the weight of a key.
  weigh : Value → Value → Except Fault ω
  -- Is a change of energy accepted at a temperature, given the number drawn for it?
  accept : Value → ρ → ω → Except Fault Bool
  source : Source σ ρ
  memory : Storage

/-- Weights are doubles, and changes are accepted by the Metropolis rule. -/
def Engine.doubles {σ : Type} (exp : Float → Float) (source : Source σ Float) (memory : Storage) :
    Engine Float σ Float where
  weigh := Coefficients.readWeight
  accept temperature r delta := metropolis exp temperature (.float r) delta
  source := source
  memory := memory

namespace Engine

variable {ω σ ρ : Type} [OfNat ω 0] [Add ω] [Neg ω]

/-- Anneal a graph with given parameters for less than a number of cooling steps, from the stream
    of a seed or else from the one that is there.  A seed that is unusable is found when the anneal
    starts. -/
def annealWithin (limit : Nat) (engine : Engine ω σ ρ) (params : Params) (seed? : Option Int)
    (graph : Graph ω) (stops : List Signal) (stream : σ) : Run ω Temperature σ Fault :=
  match engine.source.streamFor seed? stream with
  | .error fault => ⟨[], .failed fault, stream⟩
  | .ok stream => (params.plan engine.accept).anneal engine.source graph stops limit stream

def anneal (engine : Engine ω σ ρ) (params : Params) (seed? : Option Int) (graph : Graph ω)
    (stops : List Signal) (stream : σ) : Run ω Temperature σ Fault :=
  engine.annealWithin stepLimit params seed? graph stops stream

end Engine

structure Solver where
  coefficients : Coefficients
  -- The variables of the problem, ascending.
  vars : List Int
  params : Params
  seed? : Option Int

/-- An assignment that comes out of an anneal. -/
abbrev Solution := List (Int × UInt8)

/-- The assignment of a solution, as a map that is handed out. -/
def Solution.assignment (solution : Solution) : Assignment :=
  solution.map fun entry => (.int entry.1, .int entry.2.toNat)

/-- A call of a callback: an assignment and a temperature. -/
abbrev Call := Solution × Value

/-- A callback: what it leaves of the assignment that it is called with, or the fault that it
    raises, given the calls before it, the latest first. -/
abbrev Callback := List Call → Call → Except Fault Assignment

/-- The callback that fails after a number of calls, if it ever does, and changes nothing. -/
def Callback.failingAfter (count? : Option Nat) : Callback := fun calls call =>
  if count? = some calls.length then .error .callbackFailed
  else .ok (Solution.assignment call.1)

structure Delivery where
  -- The calls of the callback that were completed, as they were made.
  calls : List Call
  result : Except Fault Assignment

structure Sample (ω : Type) where
  state : Solution
  energy : ω
  temperature : Value
  steps : Nat

/-- What is known of a read, in the order in which it is tabulated. -/
def Sample.columns : List String :=
  ["state", "energy", "temperature", "num_steps", "runtime (us)"]

namespace Solver

/-- A callback that is none: no call of it fails or changes anything. -/
def silent : Callback := fun _ call => .ok (Solution.assignment call.1)

variable {ω σ ρ : Type} [OfNat ω 0] [Add ω] [Neg ω]

/-- Set up a solver.  All keys are read before the parameters are. -/
def create (coefficients : Coefficients) (supplied : Supplied) (seed? : Option Int) :
    List Warning × Except Fault Solver :=
  match coefficients.vars with
  | .error fault => ([], .error fault)
  | .ok vars =>
    let reading := Params.read supplied
    (reading.warnings, reading.result.map fun params => ⟨coefficients, vars, params, seed?⟩)

def graph (engine : Engine ω σ ρ) (solver : Solver) : Except Fault (Graph ω) :=
  Graph.build engine.weigh solver.coefficients

def anneal (engine : Engine ω σ ρ) (solver : Solver) (graph : Graph ω) (stops : List Signal)
    (stream : σ) : Run ω Temperature σ Fault :=
  engine.anneal solver.params none graph stops stream

/-! ## Delivery to a callback -/

/-- The fault of an anneal that did not finish. -/
def faultOf : Ending Fault → Fault
  | .cancelled steps => .cancelled steps
  | .failed fault => fault
  | .finished | .unfinished => .unusable

def callOf (graph : Graph ω) (report : Report ω Temperature) : Call :=
  (graph.toAssignment report.state.toList, report.temperature.toValue)

/-- Hand reports to a callback one by one, up to the first call that fails, and give what is left
    of the assignment of the last report.  `calls` holds the earlier calls in reverse order. -/
def handOver (graph : Graph ω) (callback : Callback) (ending : Ending Fault)
    (calls : List Call) : List (Report ω Temperature) → Delivery
  | [] => ⟨calls.reverse, .error (faultOf ending)⟩
  | report :: reports =>
    let call := callOf graph report
    match callback calls call with
    | .error fault => ⟨calls.reverse, .error fault⟩
    | .ok left =>
      if report.finished then ⟨(call :: calls).reverse, .ok left⟩
      else handOver graph callback ending (call :: calls) reports

/-- What is said before an anneal of a graph starts.  Nothing can be said of parameters that cannot
    be written. -/
def opening (solver : Solver) (graph : Graph ω) : Except Fault String :=
  solver.params.display.map fun params =>
    "Annealing " ++ Text.integerText graph.size ++ " variables with " ++ params ++ "."

/-- Anneal once and deliver the progress to a callback.  The outer fault is one that is found
    while the anneal is set up: that of the graph, that of saying what is annealed, or that of
    counting the steps, which are counted when the anneal is under way. -/
def solve (engine : Engine ω σ ρ) (solver : Solver) (callback : Callback) (stops : List Signal)
    (stream : σ) : Except Fault Delivery × σ :=
  match solver.graph engine with
  | .error fault => (.error fault, stream)
  | .ok graph =>
    match solver.opening graph with
    | .error fault => (.error fault, stream)
    | .ok _ =>
      let run := engine.anneal solver.params solver.seed? graph stops stream
      match solver.params.schedule.countSteps stepLimit with
      | .error fault => (.error fault, run.stream)
      | .ok _ => (.ok (handOver graph callback run.ending [] run.reports), run.stream)

/-- What is said when a delivery ends. -/
def closing (delivery : Delivery) : String :=
  match delivery.result with
  | .ok _ => "Annealing done"
  | .error _ => "Annealing ended without result."

/-! ## Samples -/

/-- Numbers of reads have 64 bits with a sign: they are less than this, and no less than its
    negative. -/
def readLimit : Int := Nat.pow 2 63

/-- The number of reads that a supplied number asks for: its ceiling, none if it is negative.
    A table of them has to be addressable, and there has to be room for it in memory.  A sequence
    is never a number, but it has to make a grid before that is found. -/
def readCount (memory : Storage) (reads : Value) : Except Fault Nat := do
  let _ ← reads.grid?
  match (← reads.toNumber?).toFloat? with
  | .error _ => throw .unusable
  | .ok x =>
    match Decimal.dyadic? x with
    | none => throw .unusable
    | some d =>
      let count := d.ceiling
      if count < -readLimit || readLimit ≤ count * Value.itemRoom then throw .unusable
      else if memory.bytes < count * Value.itemRoom then throw .exhausted
      else return count.toNat

/-- The last report of an anneal as a read. -/
def lastRead (graph : Graph ω) (run : Run ω Temperature σ Fault) : Except Fault (Sample ω) :=
  match run.ending, run.reports.getLast? with
  | .finished, some report =>
    .ok ⟨graph.toAssignment report.state.toList, report.energy, report.temperature.toValue,
      report.step⟩
  | ending, _ => .error (faultOf ending)

/-- Anneal some times in a row, each from the stream the one before left behind.  `samples`
    holds the earlier reads in reverse order. -/
def reads (engine : Engine ω σ ρ) (solver : Solver) (graph : Graph ω) :
    (count : Nat) → List (Sample ω) → σ → Except Fault (List (Sample ω)) × σ
  | 0, samples, stream => (.ok samples.reverse, stream)
  | count + 1, samples, stream =>
    let run := solver.anneal engine graph [] stream
    match lastRead graph run with
    | .error fault => (.error fault, run.stream)
    | .ok sample => reads engine solver graph count (sample :: samples) run.stream

def sample (engine : Engine ω σ ρ) (solver : Solver) (count : Value) (stream : σ) :
    Except Fault (List (Sample ω)) × σ :=
  match solver.graph engine with
  | .error fault => (.error fault, stream)
  | .ok graph =>
    match engine.source.streamFor solver.seed? stream with
    | .error fault => (.error fault, stream)
    | .ok stream =>
      match readCount engine.memory count with
      | .error fault => (.error fault, stream)
      | .ok count => solver.reads engine graph count [] stream

end Solver

end Annealing
