/-!
# The four annealing parameters

Each parameter has a long name and a short alias, and either may be used to set it.
-/

namespace Annealing

inductive Field where
  | initialTemperature
  | coolingFactor
  | finalTemperature
  | sweepsPerTemperature
deriving DecidableEq, Repr

namespace Field

/-- The parameters in the order in which they are kept. -/
def all : List Field :=
  [initialTemperature, coolingFactor, finalTemperature, sweepsPerTemperature]

def name : Field → String
  | initialTemperature => "initial_temperature"
  | coolingFactor => "cooling_factor"
  | finalTemperature => "final_temperature"
  | sweepsPerTemperature => "sweeps_per_temperature"

def shortName : Field → String
  | initialTemperature => "kTinit"
  | coolingFactor => "cl"
  | finalTemperature => "kTF"
  | sweepsPerTemperature => "rpt"

/-- The parameter that a name sets, if any. -/
def named? (name : String) : Option Field :=
  all.find? fun field => field.name == name || field.shortName == name

theorem mem_all (field : Field) : field ∈ all := by
  cases field <;> decide

end Field

end Annealing
