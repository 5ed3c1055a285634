import Annealing.Anneal.Run
import Annealing.Params.Basic
import Annealing.Params.Temperature
import Annealing.Value.Grid

/-!
# The anneal of given parameters

Parameters give a cooling schedule over supplied values: a temperature is hot while it is above
the final one, and a cooling step multiplies it by the factor.  `Params.plan` adds the sweeps and
a rule of acceptance; `metropolis` is the rule for doubles.  `Params.stepBound` is the closed form
of the number of steps.

The exponential and the logarithm are parameters.
-/

namespace Annealing

namespace Number

/-- The logarithm of a positive double. -/
def logFloat (log : Float → Float) (x : Float) : Except Fault Float :=
  if x.isNaN then .ok x
  else if 0 < x then .ok (if x.isInf then x else log x)
  else .error .unusable

/-- A positive integer as a fraction from one half to one, one excluded, and a power of two. -/
def scaled (n : Nat) : Float × Nat :=
  let e := n.log2 + 1
  let x := Decimal.quotient n (Nat.pow 2 e)
  if x < 1 then (x, e) else (x / 2, e + 1)

/-- The logarithm of a number.  An integer beyond every double is scaled down first. -/
def log (log : Float → Float) : Number → Except Fault Float
  | float x => logFloat log x
  | int i =>
    if i ≤ 0 then .error .unusable
    else
      match Decimal.ofInt? i with
      | some x => .ok (log x)
      | none =>
        let (x, e) := scaled i.toNat
        .ok (log x + log 2.0 * Float.ofNat e)

end Number

namespace Value

def log? (log : Float → Float) (value : Value) : Except Fault Value := do
  return .float (← (← value.toNumber?).log log)

/-- The least integer that is not smaller. -/
def ceil? (value : Value) : Except Fault Int := do
  match ← value.toNumber? with
  | .int i => return i
  | .float x =>
    match Decimal.dyadic? x with
    | some d => return d.ceiling
    | Option.none => throw (if x.isNaN then .unusable else .overflow)

end Value

/-- A change of energy against a temperature: `exp (-delta / temperature)`.  Where a sequence
    stands for a temperature, there is one such number for each of its cells. -/
def thresholds (exp : Float → Float) (temperature : Value) (delta : Float) :
    Except Fault (Grid Float) :=
  if temperature.isSequence then do
    let grid ← temperature.grid?
    match grid.content with
    | .numbers ts => return ⟨grid.dims, ts.map fun t => exp (-delta / t)⟩
    | .texts => throw .wrongKind
    | .loose =>
      grid.cells.forM fun cell => do discard ((Number.float (-delta)).div (← cell.toNumber?))
      throw .wrongKind
  else do
    let t ← temperature.toFloat?
    return ⟨[], [exp (-delta / t)]⟩

/-- Is a single threshold above a drawn number, given the comparison of each drawn number with
    it?  There has to be one drawn number and one threshold. -/
def single {α : Type} (below : α → Float → Bool) : List α → List Float → Except Fault Bool
  | [r], [threshold] => .ok (below r threshold)
  | _, _ => .error .unusable

/-- Is a drawn number less than the threshold?  An integer is rounded to a double first, unless it
    stands in a sequence with loose cells.  Loose cells are looked at one by one, so that they
    only have to be numbers if there is a threshold to compare them with. -/
def isBelow (r : Value) (thresholds : Grid Float) : Except Fault Bool :=
  match r.number? with
  | some x => do single (fun x threshold => x < threshold) [← x.toFloat?] thresholds.cells
  | Option.none => do
    let grid ← r.grid?
    match grid.content with
    | .numbers rs => single (fun x threshold => x < threshold) rs thresholds.cells
    | .texts => throw .incomparable
    | .loose =>
      if ← grid.combines thresholds then
        let rs ← grid.cells.mapM Value.toNumber?
        single (fun x threshold => x.lt (.float threshold)) rs thresholds.cells
      else throw .unusable

/-- Is a change of energy accepted?  It is if it is no increase, or if the drawn number is less
    than `exp (-delta / temperature)`. -/
def metropolis (exp : Float → Float) (temperature r : Value) (delta : Float) :
    Except Fault Bool :=
  if delta ≤ 0 then .ok true
  else (thresholds exp temperature delta).bind (isBelow r)

/-- The number of trials that a value asks for: an integral number, none if it is negative. -/
def trialCount (sweeps : Value) : Except Fault Nat := do
  match ← sweeps.toNumber? with
  | .int i => return i.toNat
  | .float _ => throw .wrongKind

namespace Params

def schedule (params : Params) : Schedule Temperature Fault where
  initial := .ofValue params.initialTemperature
  hot temperature := temperature.exceeds? params.finalTemperature
  cool temperature := temperature.mul? params.coolingFactor

/-- Announce a temperature: as a double, which a text cannot be formatted as. -/
def announce (temperature : Temperature) : Except Fault Unit :=
  if temperature.value.isText then .error .unusable
  else temperature.value.toFloat?.map fun _ => ()

/-- How an anneal with the parameters is run, given the rule of acceptance. -/
def plan {ω ρ : Type} (accept : Value → ρ → ω → Except Fault Bool) (params : Params) :
    Plan Temperature ω ρ Fault where
  toSchedule := params.schedule
  trials := trialCount params.sweepsPerTemperature
  accept temperature := accept temperature.toValue
  announce := announce

/-- What the log says of a cooling step. -/
def progress (report : Report Float Temperature) : String :=
  let temperature :=
    match report.temperature.value.toFloat? with
    | .ok x => Decimal.brief.write x
    | .error _ => report.temperature.toValue.display
  "step=" ++ Text.integerText report.step ++ " temperature=" ++ temperature ++
    " energy=" ++ Decimal.brief.write report.energy

def arithmetic (log : Float → Float) : Logarithmic Value Fault where
  le := Value.le?
  div a b := (a.div? b).map .float
  log := Value.log? log
  ceil := Value.ceil?

def stepBound (log : Float → Float) (params : Params) : Except Fault Int :=
  (arithmetic log).stepBound params.initialTemperature params.coolingFactor
    params.finalTemperature

end Params

end Annealing
