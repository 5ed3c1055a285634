import Annealing.Solver

/-! # A producer and a consumer

`Solver.solve` gives the outcome of a delivery.  Behind it are two processes that run at the same
time: a producer that anneals and puts its reports into a queue, and a consumer that takes them out
and calls the callback.  A `Relay` is a moment in their work, `Relay.step` a single step of one of
them, and a schedule, a list of actors, an interleaving.

* A failure of the producer goes through the queue, after the reports.
* A consumer that leaves early sets the halt signal.  The producer looks at the caller's stop
  signal, and then at the halt signal, before each cooling step.
* The caller may set its own stop signal at any time.
-/

namespace Annealing

/-- What goes through the queue. -/
inductive Message (ω : Type) where
  | report (report : Report ω Temperature)
  | failure (fault : Fault)

/-- Where the producer is. -/
inductive Producer (ω σ : Type) where
  -- Nothing is seeded or drawn yet.
  | starting (stream : σ)
  -- The temperature is looked at next.
  | guarding (walk : Walk ω Temperature σ)
  -- The caller's stop signal is looked at next.
  | polling (walk : Walk ω Temperature σ)
  -- The halt signal is looked at next.
  | pollingHalt (walk : Walk ω Temperature σ)
  -- No signal was set, and the cooling step comes next.
  | sweeping (walk : Walk ω Temperature σ)
  -- The report of a cooling step is put next.
  | reporting (walk : Walk ω Temperature σ)
  -- The last report is put next.
  | closing (walk : Walk ω Temperature σ)
  -- A failure is put next.
  | failing (fault : Fault)
  | gone

/-- Where the consumer is. -/
inductive Consumer (ω : Type) where
  -- A message is taken next, as soon as there is one.
  | waiting
  -- The callback is called next.
  | calling (report : Report ω Temperature)
  -- The halt signal is set next, on the way out.
  | leaving (fault : Fault)
  -- The halt signal is set.
  | raising (fault : Fault)
  -- The assignment of the last call is returned next, as the callback has left it.
  | returning (left : Assignment)
  -- The future is done.
  | gone (result : Except Fault Assignment)

/-- A moment of a delivery. -/
structure Relay (ω σ : Type) where
  producer : Producer ω σ
  -- The messages that are put and not taken, the oldest first.
  queue : List (Message ω)
  consumer : Consumer ω
  -- The calls as they were made, the latest first; one that raised a fault is among them.
  calls : List Call
  -- The caller's stop signal, if there is one.
  stop? : Option Bool
  halt : Bool

/-- Who takes a step. -/
inductive Actor where
  | producer
  | consumer
  -- The caller, who sets its stop signal.
  | caller
deriving DecidableEq, Repr

variable {ω σ ρ : Type} [OfNat ω 0] [Add ω] [Neg ω]

/-- Where the producer is after its next step, and what it puts into the queue in it. -/
def Producer.next (engine : Engine ω σ ρ) (solver : Solver) (graph : Graph ω)
    (stop? : Option Bool) (halt : Bool) : Producer ω σ → Option (Producer ω σ × List (Message ω))
  | .starting stream =>
    match engine.source.streamFor solver.seed? stream with
    | .error fault => some (.failing fault, [])
    | .ok stream =>
      some (.guarding ((solver.params.plan engine.accept).start engine.source graph stream), [])
  | .guarding walk =>
    match (solver.params.plan engine.accept).hot walk.temperature with
    | .error fault => some (.failing fault, [])
    | .ok false => some (.closing walk, [])
    | .ok true => some (.polling walk, [])
  | .polling walk =>
    if stop? = some true then some (.failing (.cancelled walk.step), [])
    else some (.pollingHalt walk, [])
  | .pollingHalt walk =>
    if halt then some (.failing (.cancelled walk.step), []) else some (.sweeping walk, [])
  | .sweeping walk =>
    match ((solver.params.plan engine.accept).coolingStep engine.source graph walk).1 with
    | .error fault => some (.failing fault, [])
    | .ok cooled => some (.reporting cooled, [])
  | .reporting walk => some (.guarding walk, [.report (walk.report false)])
  | .closing walk => some (.gone, [.report (walk.report true)])
  | .failing fault => some (.gone, [.failure fault])
  | .gone => none

namespace Relay

/-- Where a delivery starts. -/
def initial (stop? : Option Bool) (stream : σ) : Relay ω σ :=
  ⟨.starting stream, [], .waiting, [], stop?, false⟩

/-- What became of the future, once it is done. -/
def future? (relay : Relay ω σ) : Option (Except Fault Assignment) :=
  match relay.consumer with
  | .gone result => some result
  | _ => none

/-- A step of the producer. -/
def produce (engine : Engine ω σ ρ) (solver : Solver) (graph : Graph ω) (relay : Relay ω σ) :
    Option (Relay ω σ) :=
  (relay.producer.next engine solver graph relay.stop? relay.halt).map fun (producer, put) =>
    { relay with producer := producer, queue := relay.queue ++ put }

/-- A step of the consumer. -/
def consume (graph : Graph ω) (callback : Callback) (relay : Relay ω σ) : Option (Relay ω σ) :=
  match relay.consumer with
  | .waiting =>
    match relay.queue with
    | [] => none
    | .failure fault :: queue => some { relay with consumer := .leaving fault, queue := queue }
    | .report report :: queue => some { relay with consumer := .calling report, queue := queue }
  | .calling report =>
    let call := Solver.callOf graph report
    let called := { relay with calls := call :: relay.calls }
    match callback relay.calls call with
    | .error fault => some { called with consumer := .leaving fault }
    | .ok left =>
      if report.finished then some { called with consumer := .returning left }
      else some { called with consumer := .waiting }
  | .leaving fault => some { relay with consumer := .raising fault, halt := true }
  | .raising fault => some { relay with consumer := .gone (.error fault) }
  | .returning left => some { relay with consumer := .gone (.ok left) }
  | .gone _ => none

/-- A step of an actor; nothing if the actor cannot take one. -/
def step (engine : Engine ω σ ρ) (solver : Solver) (graph : Graph ω) (callback : Callback)
    (relay : Relay ω σ) : Actor → Option (Relay ω σ)
  | .producer => relay.produce engine solver graph
  | .consumer => relay.consume graph callback
  | .caller => relay.stop?.map fun _ => { relay with stop? := some true }

/-- The steps of a schedule, one after the other; nothing if one of them cannot be taken. -/
def run (engine : Engine ω σ ρ) (solver : Solver) (graph : Graph ω) (callback : Callback) :
    List Actor → Relay ω σ → Option (Relay ω σ)
  | [], relay => some relay
  | actor :: schedule, relay =>
    (relay.step engine solver graph callback actor).bind
      (run engine solver graph callback schedule)

end Relay

end Annealing
