import Annealing.Problem.Key
import Annealing.Value.Entries

/-!
# Coefficient maps

A problem is supplied as a map from keys to weights.  Its entries are read in map order, the key
of an entry before its weight, and the first fault is the fault of the whole map.

The weight type is a parameter, and so is the reading of weights: `readWeight` reads doubles.
-/

namespace Annealing

/-- Keys with their weights, in map order. -/
abbrev Coefficients := List (Value × Value)

/-- A term of the energy: a weight times the variables that its key names. -/
structure Term (ω : Type) where
  key : Key
  weight : ω
deriving DecidableEq, Repr

/-- Insert into an ascending list, unless it is there. -/
def insertAscending (i : Int) : List Int → List Int
  | [] => [i]
  | j :: rest =>
    if i < j then i :: j :: rest
    else if i = j then j :: rest
    else j :: insertAscending i rest

/-- The distinct members of a list in ascending order. -/
def ascending (is : List Int) : List Int :=
  is.foldl (fun acc i => insertAscending i acc) []

namespace Coefficients

/-- Read the weight of a key as a double.  Truth values are not numbers here. -/
def readWeight (key : Value) : Value → Except Fault Float
  | .int i =>
    match Decimal.ofInt? i with
    | some x => .ok x
    | none => .error .overflow
  | .float x => if x.isFinite then .ok x else .error (.notFinite key x)
  | weight => .error (.notReal key weight)

def readEntry {ω : Type} (weigh : Value → Value → Except Fault ω) (entry : Value × Value) :
    Except Fault (Term ω) := do
  let key ← Key.read entry.1
  let weight ← weigh entry.1 entry.2
  return ⟨key, weight⟩

def readTerms {ω : Type} (weigh : Value → Value → Except Fault ω) (coefficients : Coefficients) :
    Except Fault (List (Term ω)) :=
  coefficients.mapM (readEntry weigh)

/-- Read every key, in map order, and leave the weights alone. -/
def readKeys (coefficients : Coefficients) : Except Fault (List Key) :=
  coefficients.mapM fun entry => Key.read entry.1

/-- The distinct variables of the map in ascending order. -/
def vars (coefficients : Coefficients) : Except Fault (List Int) := do
  return ascending ((← readKeys coefficients).flatMap Key.vars)

end Coefficients

end Annealing
