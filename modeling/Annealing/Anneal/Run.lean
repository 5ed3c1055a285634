import Annealing.Anneal.Flip
import Annealing.Anneal.Schedule
import Annealing.Random.Source

/-!
# Anneals

An anneal draws a state and cools it down: at each temperature that is still hot it makes one
sweep, lowers the temperature and reports.  A last report, marked as finished, closes it.
Before each cooling step it looks at the stop signals and gives up if one is set.

`anneal` returns all reports together with the way in which the anneal ended and the stream of
draws it left behind.  The energy it reports is kept up to date by adding the changes of the
sweeps; it is never computed anew.
-/

namespace Annealing

/-- The progress of an anneal after a cooling step. -/
structure Report (ω τ : Type) where
  state : State
  -- The temperature after the step.
  temperature : τ
  energy : ω
  -- The number of cooling steps so far.
  step : Nat
  -- Is this the last report?
  finished : Bool

inductive Ending (ε : Type) where
  -- The temperature is no longer hot.
  | finished
  -- A stop signal was set after this many cooling steps.
  | cancelled (steps : Nat)
  | failed (fault : ε)
  -- The limit on the number of cooling steps was reached.
  | unfinished
deriving DecidableEq, Repr

/-- A stop signal: is it set when the anneal looks at it, after the given number of steps? -/
abbrev Signal := Nat → Bool

structure Plan (τ ω ρ ε : Type) extends Schedule τ ε where
  -- The number of trials of each sweep; it matters only to a graph with nodes.
  trials : Except ε Nat
  -- Is a change of energy accepted at a temperature, given the number drawn for it?
  accept : τ → ρ → ω → Except ε Bool
  -- Announce a new temperature.
  announce : τ → Except ε Unit

structure Walk (ω τ σ : Type) where
  state : State
  temperature : τ
  energy : ω
  step : Nat
  stream : σ

structure Run (ω τ σ ε : Type) where
  reports : List (Report ω τ)
  ending : Ending ε
  stream : σ

variable {ω τ σ ρ ε : Type}

def Walk.report (walk : Walk ω τ σ) (finished : Bool) : Report ω τ :=
  ⟨walk.state, walk.temperature, walk.energy, walk.step, finished⟩

section Weights

variable [OfNat ω 0] [Add ω] [Neg ω]

/-- Draw and make some trials.  A state without nodes is not swept: nothing is drawn for it, and
    the number of trials does not matter.  The stream is left as far as the sweep got. -/
def Graph.sweepDrawn (graph : Graph ω) (source : Source σ ρ) (accept : ρ → ω → Except ε Bool)
    (state : State) (trials : Except ε Nat) (stream : σ) : Swept ω ε × σ :=
  if state.isEmpty then (⟨state, 0, 0, none⟩, stream)
  else
    match trials with
    | .error fault => (⟨state, 0, 0, some fault⟩, stream)
    | .ok trials =>
      let (draws, after) := source.draws state.size trials stream
      let swept := graph.sweep accept state 0 0 draws
      match swept.fault? with
      | none => (swept, after)
      | some _ => (swept, (source.draws state.size swept.used stream).2)

namespace Plan

/-- One cooling step: a sweep, and then a lower temperature, which is announced.  The stream is
    left as far as the sweep got. -/
def coolingStep (plan : Plan τ ω ρ ε) (source : Source σ ρ) (graph : Graph ω)
    (walk : Walk ω τ σ) : Except ε (Walk ω τ σ) × σ :=
  let (swept, stream) :=
    graph.sweepDrawn source (plan.accept walk.temperature) walk.state plan.trials walk.stream
  match swept.fault? with
  | some fault => (.error fault, stream)
  | none =>
    match plan.cool walk.temperature with
    | .error fault => (.error fault, stream)
    | .ok cooler =>
      match plan.announce cooler with
      | .error fault => (.error fault, stream)
      | .ok () =>
        (.ok ⟨swept.state, cooler, walk.energy + swept.delta, walk.step + 1, stream⟩, stream)

/-- Go on from where an anneal is.  The reports so far are in reverse order. -/
def runFrom (plan : Plan τ ω ρ ε) (source : Source σ ρ) (graph : Graph ω)
    (stops : List Signal) : (limit : Nat) → Walk ω τ σ → List (Report ω τ) → Run ω τ σ ε
  | 0, walk, reports => ⟨reports.reverse, .unfinished, walk.stream⟩
  | limit + 1, walk, reports =>
    match plan.hot walk.temperature with
    | .error fault => ⟨reports.reverse, .failed fault, walk.stream⟩
    | .ok false => ⟨(walk.report true :: reports).reverse, .finished, walk.stream⟩
    | .ok true =>
      if stops.any (· walk.step) then
        ⟨reports.reverse, .cancelled walk.step, walk.stream⟩
      else
        match plan.coolingStep source graph walk with
        | (.error fault, stream) => ⟨reports.reverse, .failed fault, stream⟩
        | (.ok walk, _) => plan.runFrom source graph stops limit walk (walk.report false :: reports)

def start (plan : Plan τ ω ρ ε) (source : Source σ ρ) (graph : Graph ω) (stream : σ) :
    Walk ω τ σ :=
  let (state, stream) := source.bits graph.size stream
  ⟨state, plan.initial, graph.energy state, 0, stream⟩

def anneal (plan : Plan τ ω ρ ε) (source : Source σ ρ) (graph : Graph ω) (stops : List Signal)
    (limit : Nat) (stream : σ) : Run ω τ σ ε :=
  plan.runFrom source graph stops limit (plan.start source graph stream) []

end Plan

end Weights

end Annealing
